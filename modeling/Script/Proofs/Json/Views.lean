import Mathlib.Data.List.Forall2
import Script.Json.Trim

/-!
Trees of all types seen as one: a value of a shape is plain, or the name of a variant, or a variant
with its data, or a record of fields. What is written and what is read go through this view.
-/
namespace Script

/-- A value with its shape. -/
abbrev Shaped := (shape : Shape) × shape.Carrier

/-- What a value consists of. -/
inductive View where
  | plain
  | named (tag : String)
  | tagged (tag : String) (data : Shaped)
  | record (fields : List Shaped)
  /-- The data of another variant. -/
  | stray

namespace Shape

def view : (shape : Shape) → shape.Carrier → View
  | span => fun s => .record [⟨bound, s.start⟩, ⟨bound, s.stop⟩]
  | ident => fun i => .record [⟨text, i.text⟩, ⟨span, i.span⟩]
  | name => fun n => .record [⟨flag, n.relative⟩, ⟨list ident, n.segments⟩, ⟨span, n.span⟩]
  | primitive => fun t => .named t.label
  | typeKind => fun
    | .primitive t => .tagged "Primitive" ⟨primitive, t⟩
    | .named n => .tagged "Named" ⟨name, n⟩
  | typeRef => fun t => .record [⟨typeKind, t.kind⟩, ⟨span, t.span⟩]
  | numberKind => fun k => .named k.name
  | stringForm => fun form => .named form.label
  | unaryOp => fun op => .named op.label
  | binaryOp => fun op => .named op.label
  | compareOp => fun op => .named op.label
  | assoc => fun a => .named a.label
  | bindingKind => fun b => .named b.label
  | expr => fun e => .record [⟨exprKind, e.kind⟩, ⟨span, e.span⟩]
  | exprKind => fun
    | .name n => .tagged "Name" ⟨name, n⟩
    | .literal l => .tagged "Literal" ⟨literal, l⟩
    | .unary op operand => .tagged "Unary" ⟨unaryFields, .unary op operand⟩
    | .binary op a left right => .tagged "Binary" ⟨binaryFields, .binary op a left right⟩
    | .comparison op a left right =>
      .tagged "Comparison" ⟨comparisonFields, .comparison op a left right⟩
    | .call callee args body => .tagged "Call" ⟨callFields, .call callee args body⟩
    | .group inner => .tagged "Group" ⟨expr, inner⟩
    | .pair key value => .tagged "Pair" ⟨pairFields, .pair key value⟩
    | .object entries => .tagged "Object" ⟨list statement, entries⟩
    | .array items => .tagged "Array" ⟨list expr, items⟩
    | .transition source target => .tagged "Transition" ⟨transitionFields, .transition source target⟩
    | .ifExpr stmt => .tagged "If" ⟨ifStmt, stmt⟩
    | .whenExpr stmt => .tagged "When" ⟨whenStmt, stmt⟩
  | unaryFields => fun
    | .unary op operand => .record [⟨unaryOp, op⟩, ⟨expr, operand⟩]
    | _ => .stray
  | binaryFields => fun
    | .binary op a left right =>
      .record [⟨binaryOp, op⟩, ⟨assoc, a⟩, ⟨expr, left⟩, ⟨expr, right⟩]
    | _ => .stray
  | comparisonFields => fun
    | .comparison op a left right =>
      .record [⟨compareOp, op⟩, ⟨assoc, a⟩, ⟨expr, left⟩, ⟨expr, right⟩]
    | _ => .stray
  | callFields => fun
    | .call callee args body => .record [⟨expr, callee⟩, ⟨list expr, args⟩, ⟨option block, body⟩]
    | _ => .stray
  | pairFields => fun
    | .pair key value => .record [⟨pairKey, key⟩, ⟨expr, value⟩]
    | _ => .stray
  | transitionFields => fun
    | .transition source target => .record [⟨name, source⟩, ⟨name, target⟩]
    | _ => .stray
  | pairKey => fun
    | .name n => .tagged "Name" ⟨name, n⟩
    | .string l => .tagged "Str" ⟨stringLiteral, l⟩
  | literal => fun
    | .number kind raw => .tagged "Number" ⟨numberFields, .number kind raw⟩
    | .string l => .tagged "Str" ⟨stringLiteral, l⟩
    | .bool b => .named (if b then "True" else "False")
    | .null => .named "Null"
    | .nil => .named "Nil"
  | numberFields => fun
    | .number kind raw => .record [⟨numberKind, kind⟩, ⟨text, raw⟩]
    | _ => .stray
  | stringLiteral => fun l =>
    .record [⟨stringForm, l.form⟩, ⟨list stringPart, l.parts⟩, ⟨span, l.span⟩]
  | stringPart => fun
    | .text t => .tagged "Text" ⟨text, t⟩
    | .nameHole n => .tagged "Hole" ⟨hole, .nameHole n⟩
    | .exprHole e => .tagged "Hole" ⟨hole, .exprHole e⟩
  | hole => fun
    | .nameHole n => .tagged "Name" ⟨name, n⟩
    | .exprHole e => .tagged "Expr" ⟨expr, e⟩
    | .text _ => .stray
  | block => fun b => .record [⟨list statement, b.statements⟩, ⟨span, b.span⟩]
  | statement => fun s => .record [⟨statementKind, s.kind⟩, ⟨span, s.span⟩]
  | statementKind => fun
    | .modDecl n body => .tagged "Mod" ⟨modFields, .modDecl n body⟩
    | .useDecl d => .tagged "Use" ⟨useDecl, d⟩
    | .importDecl d => .tagged "Import" ⟨importDecl, d⟩
    | .varDecl d => .tagged "Var" ⟨varDecl, d⟩
    | .fnDecl d => .tagged "Fn" ⟨fnDecl, d⟩
    | .nodeDecl d => .tagged "Node" ⟨nodeDecl, d⟩
    | .assign target value => .tagged "Assign" ⟨assignFields, .assign target value⟩
    | .ifStmt s => .tagged "If" ⟨ifStmt, s⟩
    | .forStmt s => .tagged "For" ⟨forStmt, s⟩
    | .whenStmt s => .tagged "When" ⟨whenStmt, s⟩
    | .uiBlock b => .tagged "Ui" ⟨block, b⟩
    | .styleBlock b => .tagged "Style" ⟨block, b⟩
    | .typeDecl d => .tagged "Type" ⟨typeDecl, d⟩
    | .enumDecl d => .tagged "Enum" ⟨enumDecl, d⟩
    | .breakStmt => .named "Break"
    | .expr e => .tagged "Expr" ⟨expr, e⟩
  | modFields => fun
    | .modDecl n body => .record [⟨name, n⟩, ⟨block, body⟩]
    | _ => .stray
  | assignFields => fun
    | .assign target value => .record [⟨name, target⟩, ⟨expr, value⟩]
    | _ => .stray
  | useDecl => fun d => .record [⟨name, d.path⟩, ⟨list name, d.subs⟩, ⟨span, d.span⟩]
  | importDecl => fun d =>
    .record [⟨name, d.path⟩, ⟨option (list expr), d.args⟩, ⟨span, d.span⟩]
  | varDecl => fun d =>
    .record [⟨bindingKind, d.binding⟩, ⟨ident, d.name⟩, ⟨option typeRef, d.type⟩,
      ⟨expr, d.value⟩, ⟨span, d.span⟩]
  | fnDecl => fun d =>
    .record [⟨name, d.name⟩, ⟨list param, d.params⟩, ⟨option typeRef, d.result⟩,
      ⟨fnBody, d.body⟩, ⟨span, d.span⟩]
  | fnBody => fun
    | .block b => .tagged "Block" ⟨block, b⟩
    | .expr e => .tagged "Expr" ⟨expr, e⟩
  | param => fun p => .record [⟨ident, p.name⟩, ⟨option typeRef, p.type⟩, ⟨span, p.span⟩]
  | nodeDecl => fun d =>
    .record [⟨name, d.name⟩, ⟨list property, d.props⟩, ⟨option (list statement), d.body⟩,
      ⟨span, d.span⟩]
  | property => fun p => .record [⟨name, p.name⟩, ⟨option typeRef, p.type⟩, ⟨span, p.span⟩]
  | typeDecl => fun d => .record [⟨ident, d.name⟩, ⟨list fieldDecl, d.fields⟩, ⟨span, d.span⟩]
  | fieldDecl => fun f => .record [⟨ident, f.name⟩, ⟨typeRef, f.type⟩, ⟨span, f.span⟩]
  | enumDecl => fun d => .record [⟨ident, d.name⟩, ⟨list enumMember, d.members⟩, ⟨span, d.span⟩]
  | enumMember => fun m => .record [⟨ident, m.name⟩, ⟨option expr, m.value⟩, ⟨span, m.span⟩]
  | ifStmt => fun s =>
    .record [⟨expr, s.condition⟩, ⟨block, s.body⟩, ⟨list elseIf, s.elseIfs⟩,
      ⟨option block, s.elseBody⟩, ⟨span, s.span⟩]
  | elseIf => fun e => .record [⟨expr, e.condition⟩, ⟨block, e.body⟩, ⟨span, e.span⟩]
  | forStmt => fun s => .record [⟨forHead, s.head⟩, ⟨block, s.body⟩, ⟨span, s.span⟩]
  | forHead => fun
    | .counted init condition => .tagged "Counted" ⟨countedFields, .counted init condition⟩
    | .iterate index n iterable => .tagged "Iter" ⟨iterateFields, .iterate index n iterable⟩
  | countedFields => fun
    | .counted init condition => .record [⟨list varDecl, init⟩, ⟨option expr, condition⟩]
    | _ => .stray
  | iterateFields => fun
    | .iterate index n iterable =>
      .record [⟨option ident, index⟩, ⟨ident, n⟩, ⟨expr, iterable⟩]
    | _ => .stray
  | whenStmt => fun s =>
    .record [⟨list varDecl, s.init⟩, ⟨expr, s.subject⟩, ⟨list whenCase, s.cases⟩,
      ⟨option caseBody, s.elseBody⟩, ⟨span, s.span⟩]
  | whenCase => fun c => .record [⟨expr, c.pattern⟩, ⟨caseBody, c.body⟩, ⟨span, c.span⟩]
  | caseBody => fun
    | .block b => .tagged "Block" ⟨block, b⟩
    | .arrow s => .tagged "Arrow" ⟨statement, s⟩
  | program => fun p => .record [⟨list statement, p.statements⟩, ⟨span, p.span⟩]
  | unit | bound | flag | text | list _ | option _ => fun _ => .plain

variable {shape : Shape} {x : shape.Carrier} {tag : String} {data : Shaped} {fields : List Shaped}

/-- The plain values, and the lists and absences of others. -/
def isPlain : Shape → Bool
  | unit | bound | flag | text | list _ | option _ => true
  | _ => false

theorem isPlain_of_view (h : shape.view x = .plain) : shape.isPlain = true := by
  cases shape <;> cases x <;> (try cases ‹Bool›) <;> first | rfl | cases h

/-! ### What is written -/

section Written

theorem listToJson_expr (es : List Expr) : Expr.listToJson es = es.map Expr.toJson := by
  induction es with
  | nil => rfl
  | cons e es ih => simp [Expr.listToJson, ih]

theorem listToJson_part (ps : List StringPart) :
    StringPart.listToJson ps = ps.map StringPart.toJson := by
  induction ps with
  | nil => rfl
  | cons p ps ih => simp [StringPart.listToJson, ih]

theorem listToJson_statement (ss : List Statement) :
    Statement.listToJson ss = ss.map Statement.toJson := by
  induction ss with
  | nil => rfl
  | cons s ss ih => simp [Statement.listToJson, ih]

theorem listToJson_varDecl (ds : List VarDecl) : VarDecl.listToJson ds = ds.map VarDecl.toJson := by
  induction ds with
  | nil => rfl
  | cons d ds ih => simp [VarDecl.listToJson, ih]

theorem listToJson_member (ms : List EnumMember) :
    EnumMember.listToJson ms = ms.map EnumMember.toJson := by
  induction ms with
  | nil => rfl
  | cons m ms ih => simp [EnumMember.listToJson, ih]

theorem listToJson_elseIf (es : List ElseIf) : ElseIf.listToJson es = es.map ElseIf.toJson := by
  induction es with
  | nil => rfl
  | cons e es ih => simp [ElseIf.listToJson, ih]

theorem listToJson_case (cs : List WhenCase) :
    WhenCase.listToJson cs = cs.map WhenCase.toJson := by
  induction cs with
  | nil => rfl
  | cons c cs ih => simp [WhenCase.listToJson, ih]

theorem optToJson_expr (o : Option Expr) : Expr.optToJson o = Json.optional Expr.toJson o := by
  cases o <;> rfl

theorem optToJson_block (o : Option Block) : Block.optToJson o = Json.optional Block.toJson o := by
  cases o <;> rfl

theorem optToJson_caseBody (o : Option CaseBody) :
    CaseBody.optToJson o = Json.optional CaseBody.toJson o := by
  cases o <;> rfl

theorem optListToJson_expr (o : Option (List Expr)) :
    Expr.optListToJson o = Json.optional (fun es => .array (es.map Expr.toJson)) o := by
  cases o <;> simp [Expr.optListToJson, Json.optional, listToJson_expr]

theorem optListToJson_statement (o : Option (List Statement)) :
    Statement.optListToJson o = Json.optional (fun ss => .array (ss.map Statement.toJson)) o := by
  cases o <;> simp [Statement.optListToJson, Json.optional, listToJson_statement]

theorem toJson_of_named (h : shape.view x = .named tag) : shape.toJson x = .string tag := by
  cases shape <;> cases x <;> (try cases ‹Bool›) <;> cases h <;> rfl

theorem toJson_of_tagged (h : shape.view x = .tagged tag data) :
    shape.toJson x = .tagged tag (data.1.toJson data.2) := by
  cases shape <;> cases x <;> (try cases ‹Bool›) <;> cases h <;>
    first | rfl | simp [toJson, ExprKind.toJson, listToJson_expr, listToJson_statement]

theorem toJson_of_record (h : shape.view x = .record fields) :
    shape.toJson x =
      .object (shape.fieldNames.zip (fields.map fun part => part.1.toJson part.2)) := by
  cases shape <;> cases x <;> cases h <;>
    first
    | rfl
    | simp [toJson, fieldNames, Json.untagged, Json.tagged, ExprKind.toJson, Block.toJson,
        StringLiteral.toJson, ImportDecl.toJson, NodeDecl.toJson, EnumDecl.toJson,
        EnumMember.toJson, IfStmt.toJson, ForHead.toJson, WhenStmt.toJson, Program.toJson,
        listToJson_expr, listToJson_part, listToJson_statement, listToJson_varDecl,
        listToJson_member, listToJson_elseIf, listToJson_case, optToJson_expr, optToJson_block,
        optToJson_caseBody, optListToJson_expr, optListToJson_statement]

end Written

/-! ### The parts that a shape tells of -/

theorem fieldNames_eq (shape : Shape) : shape.fieldNames = shape.parts.map Prod.fst := by
  cases shape <;> rfl

theorem shapes_of_record (h : shape.view x = .record fields) :
    fields.map Sigma.fst = shape.parts.map Prod.snd := by
  cases shape <;> cases x <;> cases h <;> rfl

theorem variant?_of_tagged (h : shape.view x = .tagged tag data) :
    shape.parts = [] ∧ shape.variant? tag = some data.1 := by
  cases shape <;> cases x <;> (try cases ‹Bool›) <;> cases h <;> exact ⟨rfl, rfl⟩

theorem variant?_of_named (h : shape.view x = .named tag) :
    shape.parts = [] ∧ shape.variant? tag = none := by
  cases shape <;> cases x <;> (try cases ‹Bool›) <;> cases h <;> exact ⟨rfl, rfl⟩

theorem parts_of_variant? {tag : String} {carried : Shape} (h : shape.variant? tag = some carried) :
    shape.parts = [] := by
  cases shape <;> first | rfl | cases h

/-! ### What is read -/

theorem ofFields_of_record {values : List Reading} (hx : shape.view x = .record fields)
    (hv : List.Forall₂ (fun value part => value part.1 = some part.2) values fields) :
    Reading.ofFields values shape = some x := by
  cases shape <;> cases x <;> cases hx
  all_goals
    repeat rcases hv with _ | ⟨_, hv⟩
    simp [Reading.ofFields, *]

theorem record_of_ofFields {values : List Reading} (h : Reading.ofFields values shape = some x) :
    ∃ fields, shape.view x = .record fields ∧
      List.Forall₂ (fun value part => value part.1 = some part.2) values fields := by
  revert x
  fun_cases Reading.ofFields values shape
  all_goals
    intro x h
    simp only [Reading.ofFields, Option.bind_eq_bind, Option.bind_eq_some_iff, Option.pure_def,
      Option.some.injEq, reduceCtorEq] at h
  all_goals
    repeat obtain ⟨_, _, h⟩ := h
    exact ⟨_, rfl, by simp [*]⟩

theorem ofName_of_named (h : shape.view x = .named tag) : Reading.ofName tag shape = some x := by
  cases shape <;> cases x <;> (try cases ‹Bool›) <;> cases h <;> rfl

theorem named_of_ofName (h : Reading.ofName tag shape = some x) : shape.view x = .named tag := by
  revert x
  fun_cases Reading.ofName tag shape
  all_goals
    intro x h
    simp only [Reading.ofName, Reading.ofLabel, reduceCtorEq] at h
  all_goals
    first
    | cases h; rfl
    | obtain ⟨rfl, h⟩ := Option.ite_none_right_eq_some.1 h; cases h; rfl
    | have := List.find?_some h
      simp only [beq_iff_eq] at this
      simp [view, this]

theorem ofTagged_of_tagged {value : Reading} (h : shape.view x = .tagged tag data)
    (hv : value data.1 = some data.2) : Reading.ofTagged tag value shape = some x := by
  cases shape <;> cases x <;> (try cases ‹Bool›) <;> cases h <;> simp [Reading.ofTagged, hv]

theorem tagged_of_ofTagged {value : Reading} (h : Reading.ofTagged tag value shape = some x)
    (hv : ∀ data : Shaped, value data.1 = some data.2 → data.1.view data.2 ≠ .stray) :
    ∃ data, shape.view x = .tagged tag data ∧ value data.1 = some data.2 := by
  revert x
  fun_cases Reading.ofTagged tag value shape
  all_goals
    intro x h
    simp only [Reading.ofTagged, Option.map_eq_some_iff, reduceCtorEq] at h
  all_goals
    first
    | obtain ⟨a, ha, rfl⟩ := h
      exact ⟨_, rfl, ha⟩
    | have := hv ⟨_, _⟩ h
      cases x <;> first | exact absurd rfl this | exact ⟨_, rfl, h⟩

end Shape

end Script
