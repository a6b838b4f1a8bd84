import Script.Json.Shape
import Script.Json.Write

/-!
Trees from JSON values. Every value is read as every shape at once: a reading answers for each shape
whether the value fits it and what it then stands for, so one recursion on the value reads trees of
all types. A record is an object, which may have fields that its shape does not know and may lack
those that can be absent, or the array of all its fields in order. A variant without data is its
name alone or its name with `null`, one with data the object that has its name as the only key.
-/
namespace Script

/-- What a JSON value stands for, as a value of each shape. -/
abbrev Reading := (shape : Shape) → Option shape.Carrier

namespace Reading

def ofNull : Reading
  | .option _ => some none
  | .unit => some ()
  | _ => none

def ofBool (b : Bool) : Reading
  | .flag => some b
  | _ => none

/-- Positions are below 2^64. -/
def ofNatural (n : Nat) : Reading
  | .bound => if n < UInt64.size then some n else none
  | _ => none

def ofLabel {α : Type} (all : List α) (label : α → String) (s : String) : Option α :=
  all.find? (fun a => label a == s)

/-- A variant without data, from its name. -/
def ofName (s : String) : Reading
  | .primitive => ofLabel PrimitiveType.all PrimitiveType.label s
  | .numberKind => ofLabel [.int, .bin, .hex, .float] NumberKind.name s
  | .stringForm => ofLabel StringForm.all StringForm.label s
  | .unaryOp => ofLabel [.not, .neg, .plus] UnaryOp.label s
  | .binaryOp => ofLabel [.add, .sub, .mul, .div] BinaryOp.label s
  | .compareOp => ofLabel [.eq, .ne, .lt, .le, .gt, .ge] CompareOp.label s
  | .assoc => ofLabel [.left, .right] Assoc.label s
  | .bindingKind => ofLabel [.varBinding, .letBinding] BindingKind.label s
  | .literal =>
    match s with
    | "True" => some (.bool true)
    | "False" => some (.bool false)
    | "Null" => some .null
    | "Nil" => some .nil
    | _ => none
  | .statementKind => if s = "Break" then some .breakStmt else none
  | _ => none

def ofString (s : String) : Reading
  | .text => some s
  | shape => ofName s shape

/-- A record or the data of a variant, from the readings of its fields in order. -/
def ofFields (values : List Reading) : Reading
  | .span => do
    let [start, stop] := values | none
    return { start := ← start .bound, stop := ← stop .bound }
  | .ident => do
    let [text, span] := values | none
    return { text := ← text .text, span := ← span .span }
  | .name => do
    let [relative, segments, span] := values | none
    return {
      relative := ← relative .flag
      segments := ← segments (.list .ident)
      span := ← span .span }
  | .typeRef => do
    let [kind, span] := values | none
    return { kind := ← kind .typeKind, span := ← span .span }
  | .expr => do
    let [kind, span] := values | none
    return { kind := ← kind .exprKind, span := ← span .span }
  | .unaryFields => do
    let [op, operand] := values | none
    return .unary (← op .unaryOp) (← operand .expr)
  | .binaryFields => do
    let [op, assoc, left, right] := values | none
    return .binary (← op .binaryOp) (← assoc .assoc) (← left .expr) (← right .expr)
  | .comparisonFields => do
    let [op, assoc, left, right] := values | none
    return .comparison (← op .compareOp) (← assoc .assoc)
      (← left .expr) (← right .expr)
  | .callFields => do
    let [callee, args, body] := values | none
    return .call (← callee .expr) (← args (.list .expr)) (← body (.option .block))
  | .pairFields => do
    let [key, value] := values | none
    return .pair (← key .pairKey) (← value .expr)
  | .transitionFields => do
    let [source, target] := values | none
    return .transition (← source .name) (← target .name)
  | .numberFields => do
    let [kind, raw] := values | none
    return .number (← kind .numberKind) (← raw .text)
  | .stringLiteral => do
    let [form, parts, span] := values | none
    return {
      form := ← form .stringForm
      parts := ← parts (.list .stringPart)
      span := ← span .span }
  | .block => do
    let [statements, span] := values | none
    return {
      statements := ← statements (.list .statement)
      span := ← span .span }
  | .statement => do
    let [kind, span] := values | none
    return { kind := ← kind .statementKind, span := ← span .span }
  | .modFields => do
    let [name, body] := values | none
    return .modDecl (← name .name) (← body .block)
  | .assignFields => do
    let [target, value] := values | none
    return .assign (← target .name) (← value .expr)
  | .useDecl => do
    let [path, subs, span] := values | none
    return {
      path := ← path .name
      subs := ← subs (.list .name)
      span := ← span .span }
  | .importDecl => do
    let [path, args, span] := values | none
    return {
      path := ← path .name
      args := ← args (.option (.list .expr))
      span := ← span .span }
  | .varDecl => do
    let [binding, name, type, value, span] := values | none
    return {
      binding := ← binding .bindingKind
      name := ← name .ident
      type := ← type (.option .typeRef)
      value := ← value .expr
      span := ← span .span }
  | .fnDecl => do
    let [name, params, result, body, span] := values | none
    return {
      name := ← name .name
      params := ← params (.list .param)
      result := ← result (.option .typeRef)
      body := ← body .fnBody
      span := ← span .span }
  | .param => do
    let [name, type, span] := values | none
    return {
      name := ← name .ident
      type := ← type (.option .typeRef)
      span := ← span .span }
  | .nodeDecl => do
    let [name, props, body, span] := values | none
    return {
      name := ← name .name
      props := ← props (.list .property)
      body := ← body (.option (.list .statement))
      span := ← span .span }
  | .property => do
    let [name, type, span] := values | none
    return {
      name := ← name .name
      type := ← type (.option .typeRef)
      span := ← span .span }
  | .typeDecl => do
    let [name, fields, span] := values | none
    return {
      name := ← name .ident
      fields := ← fields (.list .fieldDecl)
      span := ← span .span }
  | .fieldDecl => do
    let [name, type, span] := values | none
    return {
      name := ← name .ident
      type := ← type .typeRef
      span := ← span .span }
  | .enumDecl => do
    let [name, members, span] := values | none
    return {
      name := ← name .ident
      members := ← members (.list .enumMember)
      span := ← span .span }
  | .enumMember => do
    let [name, value, span] := values | none
    return {
      name := ← name .ident
      value := ← value (.option .expr)
      span := ← span .span }
  | .ifStmt => do
    let [condition, body, elseIfs, elseBody, span] := values | none
    return {
      condition := ← condition .expr
      body := ← body .block
      elseIfs := ← elseIfs (.list .elseIf)
      elseBody := ← elseBody (.option .block)
      span := ← span .span }
  | .elseIf => do
    let [condition, body, span] := values | none
    return {
      condition := ← condition .expr
      body := ← body .block
      span := ← span .span }
  | .forStmt => do
    let [kind, body, span] := values | none
    return {
      head := ← kind .forHead
      body := ← body .block
      span := ← span .span }
  | .countedFields => do
    let [init, condition] := values | none
    return .counted (← init (.list .varDecl)) (← condition (.option .expr))
  | .iterateFields => do
    let [index, name, iterable] := values | none
    return .iterate (← index (.option .ident)) (← name .ident) (← iterable .expr)
  | .whenStmt => do
    let [init, subject, cases, elseBody, span] := values | none
    return {
      init := ← init (.list .varDecl)
      subject := ← subject .expr
      cases := ← cases (.list .whenCase)
      elseBody := ← elseBody (.option .caseBody)
      span := ← span .span }
  | .whenCase => do
    let [pattern, body, span] := values | none
    return {
      pattern := ← pattern .expr
      body := ← body .caseBody
      span := ← span .span }
  | .program => do
    let [statements, span] := values | none
    return {
      statements := ← statements (.list .statement)
      span := ← span .span }
  | _ => none

/-- A record may be the array of its fields; the data of a variant may not. -/
def ofArray (items : List Reading) : Reading
  | .list item => items.mapM (· item)
  | shape => if shape.isVariantData then none else ofFields items shape

/-- A variant with data, from its name and the reading of its data. -/
def ofTagged (tag : String) (data : Reading) : Reading
  | .typeKind =>
    match tag with
    | "Primitive" => (data .primitive).map .primitive
    | "Named" => (data .name).map .named
    | _ => none
  | .exprKind =>
    match tag with
    | "Name" => (data .name).map .name
    | "Literal" => (data .literal).map .literal
    | "Unary" => data .unaryFields
    | "Binary" => data .binaryFields
    | "Comparison" => data .comparisonFields
    | "Call" => data .callFields
    | "Group" => (data .expr).map .group
    | "Pair" => data .pairFields
    | "Object" => (data (.list .statement)).map .object
    | "Array" => (data (.list .expr)).map .array
    | "Transition" => data .transitionFields
    | "If" => (data .ifStmt).map .ifExpr
    | "When" => (data .whenStmt).map .whenExpr
    | _ => none
  | .pairKey =>
    match tag with
    | "Name" => (data .name).map .name
    | "Str" => (data .stringLiteral).map .string
    | _ => none
  | .literal =>
    match tag with
    | "Number" => data .numberFields
    | "Str" => (data .stringLiteral).map .string
    | _ => none
  | .stringPart =>
    match tag with
    | "Text" => (data .text).map .text
    | "Hole" => data .hole
    | _ => none
  | .hole =>
    match tag with
    | "Name" => (data .name).map .nameHole
    | "Expr" => (data .expr).map .exprHole
    | _ => none
  | .statementKind =>
    match tag with
    | "Mod" => data .modFields
    | "Use" => (data .useDecl).map .useDecl
    | "Import" => (data .importDecl).map .importDecl
    | "Var" => (data .varDecl).map .varDecl
    | "Fn" => (data .fnDecl).map .fnDecl
    | "Node" => (data .nodeDecl).map .nodeDecl
    | "Assign" => data .assignFields
    | "If" => (data .ifStmt).map .ifStmt
    | "For" => (data .forStmt).map .forStmt
    | "When" => (data .whenStmt).map .whenStmt
    | "Ui" => (data .block).map .uiBlock
    | "Style" => (data .block).map .styleBlock
    | "Type" => (data .typeDecl).map .typeDecl
    | "Enum" => (data .enumDecl).map .enumDecl
    | "Expr" => (data .expr).map .expr
    | _ => none
  | .fnBody =>
    match tag with
    | "Block" => (data .block).map .block
    | "Expr" => (data .expr).map .expr
    | _ => none
  | .forHead =>
    match tag with
    | "Counted" => data .countedFields
    | "Iter" => data .iterateFields
    | _ => none
  | .caseBody =>
    match tag with
    | "Block" => (data .block).map .block
    | "Arrow" => (data .statement).map .arrow
    | _ => none
  | _ => none

/-- A variant, from its name and the reading of its data, which is `null` if it carries none. -/
def ofVariant (tag : String) (data : Reading) : Reading := fun shape =>
  (ofTagged tag data shape).or ((data .unit).bind fun _ => ofName tag shape)

/-- What an absent field stands for. -/
def absent : Reading
  | .option _ => some none
  | _ => none

/-- The reading of a field of a record. -/
def field (fields : List (String × Reading)) (key : String) : Reading :=
  (fields.lookup key).getD absent

def ofObject (fields : List (String × Reading)) : Reading := fun shape =>
  match shape.fieldNames, fields with
  | [], [(tag, data)] => ofVariant tag data shape
  | [], _ => none
  | keys, fields => ofFields (keys.map (field fields)) shape

/-- What is there, where it may have been absent. -/
def present (reading : Reading) : Reading
  | .option item => (reading item).map some
  | shape => reading shape

end Reading

mutual

def Json.read : Json → Reading
  | .null => Reading.ofNull
  | .bool b => Reading.present (Reading.ofBool b)
  | .natural n => Reading.present (Reading.ofNatural n)
  | .numeral _ => fun _ => none
  | .string s => Reading.present (Reading.ofString s)
  | .array items => Reading.present (Reading.ofArray (Json.readItems items))
  | .object fields => Reading.present (Reading.ofObject (Json.readFields fields))

def Json.readItems : List Json → List Reading
  | [] => []
  | j :: js => j.read :: Json.readItems js

def Json.readFields : List (String × Json) → List (String × Reading)
  | [] => []
  | (key, j) :: fields => (key, j.read) :: Json.readFields fields

end

end Script
