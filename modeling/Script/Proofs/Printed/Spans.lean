import Script.Tree.Layout
import Script.Tree.Spans

/-!
The written form of a tree does not tell where its text stood: trees that differ in their spans only
are printed alike.
-/
namespace Script

@[simp] theorem Name.mapSpans_path (f : Span → Span) (n : Name) : (n.mapSpans f).path = n.path := by
  obtain ⟨relative, segments, span⟩ := n
  cases relative <;> simp [Name.mapSpans, Name.path, Ident.mapSpans, Function.comp_def]

@[simp] theorem TypeRef.mapSpans_path (f : Span → Span) (t : TypeRef) :
    (t.mapSpans f).path = t.path := by
  obtain ⟨kind, span⟩ := t
  cases kind with
  | primitive => rfl
  | named n => exact n.mapSpans_path f

@[simp] theorem Layout.annotation_mapSpans (f : Span → Span) (type : Option TypeRef) :
    annotation (type.map (TypeRef.mapSpans f)) = annotation type := by
  cases type with
  | none => rfl
  | some t => exact congrArg (" " ++ ·) (t.mapSpans_path f)

@[simp] theorem UseDecl.print_mapSpans (f : Span → Span) (d : UseDecl) :
    (d.mapSpans f).print = d.print := by
  simp [UseDecl.mapSpans, UseDecl.print, Function.comp_def]

@[simp] theorem Param.print_mapSpans (f : Span → Span) (p : Param) :
    (p.mapSpans f).print = p.print := by
  simp [Param.mapSpans, Param.print, Ident.mapSpans]

@[simp] theorem Property.print_mapSpans (f : Span → Span) (p : Property) :
    (p.mapSpans f).print = p.print := by
  simp [Property.mapSpans, Property.print]

@[simp] theorem TypeDecl.print_mapSpans (f : Span → Span) (d : TypeDecl) (indent : Nat) :
    (d.mapSpans f).print indent = d.print indent := by
  simp [TypeDecl.mapSpans, TypeDecl.print, FieldDecl.mapSpans, Ident.mapSpans, Function.comp_def]

@[simp] theorem Name.printHole_mapSpans (f : Span → Span) (n : Name) (next : List StringPart) :
    (n.mapSpans f).printHole (StringPart.mapSpansEach f next) = n.printHole next := by
  cases next with
  | nil => simp [Name.printHole, StringPart.mapSpansEach]
  | cons part parts =>
    cases part <;> simp [Name.printHole, StringPart.mapSpansEach, StringPart.mapSpans]

section Trees

variable (f : Span → Span)

mutual

theorem Expr.print_mapSpans (indent : Nat) :
    ∀ e : Expr, (e.mapSpans f).print indent = e.print indent
  | ⟨kind, _⟩ => ExprKind.print_mapSpans indent kind

theorem ExprKind.print_mapSpans (indent : Nat) :
    ∀ k : ExprKind, (k.mapSpans f).print indent = k.print indent
  | .name n => n.mapSpans_path f
  | .literal l => Literal.print_mapSpans indent l
  | .unary _ operand => by
    simp only [ExprKind.mapSpans, ExprKind.print, Expr.print_mapSpans indent operand]
  | .binary _ _ left right => by
    simp only [ExprKind.mapSpans, ExprKind.print, Expr.print_mapSpans indent left,
      Expr.print_mapSpans indent right]
  | .comparison _ _ left right => by
    simp only [ExprKind.mapSpans, ExprKind.print, Expr.print_mapSpans indent left,
      Expr.print_mapSpans indent right]
  | .call callee args body => by
    simp only [ExprKind.mapSpans, ExprKind.print, Expr.print_mapSpans indent callee,
      Expr.printEach_mapSpans indent args, Block.printTrailing_mapSpans indent body]
  | .group inner => by
    simp only [ExprKind.mapSpans, ExprKind.print, Expr.print_mapSpans indent inner]
  | .pair key value => by
    simp only [ExprKind.mapSpans, ExprKind.print, PairKey.print_mapSpans indent key,
      Expr.print_mapSpans indent value]
  | .object entries => by
    simp only [ExprKind.mapSpans, ExprKind.print, Statement.printEach_mapSpans indent entries]
  | .array items => by
    simp only [ExprKind.mapSpans, ExprKind.print, Expr.printEach_mapSpans indent items]
  | .transition source target => by
    simp only [ExprKind.mapSpans, ExprKind.print, Name.mapSpans_path]
  | .ifExpr stmt => IfStmt.print_mapSpans indent stmt
  | .whenExpr stmt => WhenStmt.print_mapSpans indent stmt

theorem Expr.printEach_mapSpans (indent : Nat) : ∀ es : List Expr,
    Expr.printEach indent (Expr.mapSpansEach f es) = Expr.printEach indent es
  | [] => rfl
  | e :: es => by
    simp only [Expr.mapSpansEach, Expr.printEach, Expr.print_mapSpans indent e,
      Expr.printEach_mapSpans indent es]

theorem Block.printTrailing_mapSpans (indent : Nat) : ∀ body : Option Block,
    Block.printTrailing indent (Block.mapSpansOption f body) = Block.printTrailing indent body
  | none => rfl
  | some body => congrArg (" " ++ ·) (Block.print_mapSpans indent body)

theorem PairKey.print_mapSpans (indent : Nat) :
    ∀ k : PairKey, (k.mapSpans f).print indent = k.print indent
  | .name n => n.mapSpans_path f
  | .string l => StringLiteral.print_mapSpans indent l

theorem Literal.print_mapSpans (indent : Nat) :
    ∀ l : Literal, (l.mapSpans f).print indent = l.print indent
  | .number _ _ => rfl
  | .string l => StringLiteral.print_mapSpans indent l
  | .bool _ => rfl
  | .null => rfl
  | .nil => rfl

theorem StringLiteral.print_mapSpans (indent : Nat) :
    ∀ l : StringLiteral, (l.mapSpans f).print indent = l.print indent
  | ⟨form, parts, _⟩ => by
    simp only [StringLiteral.mapSpans, StringLiteral.print,
      StringPart.printEach_mapSpans form indent parts]

theorem StringPart.printEach_mapSpans (form : StringForm) (indent : Nat) :
    ∀ parts : List StringPart, StringPart.printEach form indent (StringPart.mapSpansEach f parts) =
      StringPart.printEach form indent parts
  | [] => rfl
  | part :: parts => by
    simp only [StringPart.mapSpansEach, StringPart.printEach,
      StringPart.print_mapSpans form indent parts part,
      StringPart.printEach_mapSpans form indent parts]

theorem StringPart.print_mapSpans (form : StringForm) (indent : Nat) (next : List StringPart) :
    ∀ part : StringPart, (part.mapSpans f).print form indent (StringPart.mapSpansEach f next) =
      part.print form indent next
  | .text _ => rfl
  | .nameHole n => n.printHole_mapSpans f next
  | .exprHole e => by
    simp only [StringPart.mapSpans, StringPart.print, Expr.print_mapSpans indent e]

theorem Block.print_mapSpans (indent : Nat) :
    ∀ b : Block, (b.mapSpans f).print indent = b.print indent
  | ⟨statements, _⟩ => by
    simp only [Block.mapSpans, Block.print, Statement.printEach_mapSpans (indent + 1) statements]

theorem Statement.print_mapSpans (indent : Nat) :
    ∀ st : Statement, (st.mapSpans f).print indent = st.print indent
  | ⟨kind, _⟩ => StatementKind.print_mapSpans indent kind

theorem Statement.printEach_mapSpans (indent : Nat) : ∀ sts : List Statement,
    Statement.printEach indent (Statement.mapSpansEach f sts) = Statement.printEach indent sts
  | [] => rfl
  | st :: sts => by
    simp only [Statement.mapSpansEach, Statement.printEach, Statement.print_mapSpans indent st,
      Statement.printEach_mapSpans indent sts]

theorem StatementKind.print_mapSpans (indent : Nat) :
    ∀ k : StatementKind, (k.mapSpans f).print indent = k.print indent
  | .modDecl name body => by
    simp only [StatementKind.mapSpans, StatementKind.print, Name.mapSpans_path,
      Block.print_mapSpans indent body]
  | .useDecl d => d.print_mapSpans f
  | .importDecl d => ImportDecl.print_mapSpans indent d
  | .varDecl d => VarDecl.print_mapSpans indent d
  | .fnDecl d => FnDecl.print_mapSpans indent d
  | .nodeDecl d => NodeDecl.print_mapSpans indent d
  | .assign target value => by
    simp only [StatementKind.mapSpans, StatementKind.print, Name.mapSpans_path,
      Expr.print_mapSpans indent value]
  | .ifStmt stmt => IfStmt.print_mapSpans indent stmt
  | .forStmt stmt => ForStmt.print_mapSpans indent stmt
  | .whenStmt stmt => WhenStmt.print_mapSpans indent stmt
  | .uiBlock body => congrArg ("ui " ++ ·) (Block.print_mapSpans indent body)
  | .styleBlock body => congrArg ("style " ++ ·) (Block.print_mapSpans indent body)
  | .typeDecl d => d.print_mapSpans f indent
  | .enumDecl d => EnumDecl.print_mapSpans indent d
  | .breakStmt => rfl
  | .expr e => Expr.print_mapSpans indent e

theorem ImportDecl.print_mapSpans (indent : Nat) :
    ∀ d : ImportDecl, (d.mapSpans f).print indent = d.print indent
  | ⟨path, none, _⟩ => by
    simp only [ImportDecl.mapSpans, ImportDecl.print, Name.mapSpans_path]
  | ⟨path, some args, _⟩ => by
    simp only [ImportDecl.mapSpans, ImportDecl.print, ImportDecl.printArgs, Name.mapSpans_path,
      Expr.printEach_mapSpans indent args]

theorem VarDecl.print_mapSpans (indent : Nat) :
    ∀ d : VarDecl, (d.mapSpans f).print indent = d.print indent
  | ⟨binding, name, type, value, _⟩ => by
    simp only [VarDecl.mapSpans, VarDecl.print, Ident.mapSpans, Layout.annotation_mapSpans,
      Expr.print_mapSpans indent value]

theorem VarDecl.printInit_mapSpans (indent : Nat) : ∀ ds : List VarDecl,
    VarDecl.printInit indent (VarDecl.mapSpansEach f ds) = VarDecl.printInit indent ds
  | [] => rfl
  | d :: ds => by
    simp only [VarDecl.mapSpansEach, VarDecl.printInit, VarDecl.print_mapSpans indent d,
      VarDecl.printInit_mapSpans indent ds]

theorem FnDecl.print_mapSpans (indent : Nat) :
    ∀ d : FnDecl, (d.mapSpans f).print indent = d.print indent
  | ⟨name, params, result, body, _⟩ => by
    simp only [FnDecl.mapSpans, FnDecl.print, Name.mapSpans_path, Layout.annotation_mapSpans,
      List.map_map, Function.comp_def, Param.print_mapSpans, FnBody.print_mapSpans indent body]

theorem FnBody.print_mapSpans (indent : Nat) :
    ∀ b : FnBody, (b.mapSpans f).print indent = b.print indent
  | .block body => congrArg (" " ++ ·) (Block.print_mapSpans indent body)
  | .expr e => congrArg (" = " ++ ·) (Expr.print_mapSpans indent e)

theorem NodeDecl.print_mapSpans (indent : Nat) :
    ∀ d : NodeDecl, (d.mapSpans f).print indent = d.print indent
  | ⟨name, props, none, _⟩ => by
    simp only [NodeDecl.mapSpans, NodeDecl.print, Name.mapSpans_path, List.map_map,
      Function.comp_def, Property.print_mapSpans]
  | ⟨name, props, some entries, _⟩ => by
    simp only [NodeDecl.mapSpans, NodeDecl.print, NodeDecl.printBody, Name.mapSpans_path,
      List.map_map, Function.comp_def, Property.print_mapSpans,
      Statement.printEach_mapSpans (indent + 1) entries]

theorem EnumDecl.print_mapSpans (indent : Nat) :
    ∀ d : EnumDecl, (d.mapSpans f).print indent = d.print indent
  | ⟨name, members, _⟩ => by
    simp only [EnumDecl.mapSpans, EnumDecl.print, Ident.mapSpans,
      EnumMember.printLines_mapSpans (indent + 1) members]

theorem EnumMember.printLines_mapSpans (indent : Nat) : ∀ ms : List EnumMember,
    EnumMember.printLines indent (EnumMember.mapSpansEach f ms) = EnumMember.printLines indent ms
  | [] => rfl
  | m :: ms => by
    simp only [EnumMember.mapSpansEach, EnumMember.printLines, EnumMember.print_mapSpans indent m,
      EnumMember.printLines_mapSpans indent ms]

theorem EnumMember.print_mapSpans (indent : Nat) :
    ∀ m : EnumMember, (m.mapSpans f).print indent = m.print indent
  | ⟨_, none, _⟩ => rfl
  | ⟨name, some value, _⟩ => by
    simp only [EnumMember.mapSpans, Expr.mapSpansOption, EnumMember.print, Ident.mapSpans,
      Expr.print_mapSpans indent value]

theorem IfStmt.print_mapSpans (indent : Nat) :
    ∀ s : IfStmt, (s.mapSpans f).print indent = s.print indent
  | ⟨condition, body, elseIfs, elseBody, _⟩ => by
    simp only [IfStmt.mapSpans, IfStmt.print, Expr.print_mapSpans indent condition,
      Block.print_mapSpans indent body, ElseIf.printEach_mapSpans indent elseIfs,
      Block.printElse_mapSpans indent elseBody]

theorem ElseIf.printEach_mapSpans (indent : Nat) : ∀ es : List ElseIf,
    ElseIf.printEach indent (ElseIf.mapSpansEach f es) = ElseIf.printEach indent es
  | [] => rfl
  | e :: es => by
    simp only [ElseIf.mapSpansEach, ElseIf.printEach, ElseIf.print_mapSpans indent e,
      ElseIf.printEach_mapSpans indent es]

theorem ElseIf.print_mapSpans (indent : Nat) :
    ∀ e : ElseIf, (e.mapSpans f).print indent = e.print indent
  | ⟨condition, body, _⟩ => by
    simp only [ElseIf.mapSpans, ElseIf.print, Expr.print_mapSpans indent condition,
      Block.print_mapSpans indent body]

theorem Block.printElse_mapSpans (indent : Nat) : ∀ body : Option Block,
    Block.printElse indent (Block.mapSpansOption f body) = Block.printElse indent body
  | none => rfl
  | some body => congrArg (" else " ++ ·) (Block.print_mapSpans indent body)

theorem ForStmt.print_mapSpans (indent : Nat) :
    ∀ s : ForStmt, (s.mapSpans f).print indent = s.print indent
  | ⟨head, body, _⟩ => by
    simp only [ForStmt.mapSpans, ForStmt.print, ForHead.print_mapSpans indent head,
      Block.print_mapSpans indent body]

theorem ForHead.print_mapSpans (indent : Nat) :
    ∀ h : ForHead, (h.mapSpans f).print indent = h.print indent
  | .counted init none => VarDecl.printInit_mapSpans indent init
  | .counted init (some condition) => by
    simp only [ForHead.mapSpans, Expr.mapSpansOption, ForHead.print,
      VarDecl.printInit_mapSpans indent init, Expr.print_mapSpans indent condition]
  | .iterate index name iterable => by
    cases index <;> simp only [ForHead.mapSpans, ForHead.print, Option.map_none, Option.map_some,
      Ident.mapSpans, Expr.print_mapSpans indent iterable]

theorem WhenStmt.print_mapSpans (indent : Nat) :
    ∀ s : WhenStmt, (s.mapSpans f).print indent = s.print indent
  | ⟨init, subject, cases, elseBody, _⟩ => by
    simp only [WhenStmt.mapSpans, WhenStmt.print, VarDecl.printInit_mapSpans indent init,
      Expr.print_mapSpans indent subject, WhenCase.printLines_mapSpans (indent + 1) cases,
      CaseBody.printElse_mapSpans (indent + 1) elseBody]

theorem WhenCase.printLines_mapSpans (indent : Nat) : ∀ cs : List WhenCase,
    WhenCase.printLines indent (WhenCase.mapSpansEach f cs) = WhenCase.printLines indent cs
  | [] => rfl
  | c :: cs => by
    simp only [WhenCase.mapSpansEach, WhenCase.printLines, WhenCase.print_mapSpans indent c,
      WhenCase.printLines_mapSpans indent cs]

theorem WhenCase.print_mapSpans (indent : Nat) :
    ∀ c : WhenCase, (c.mapSpans f).print indent = c.print indent
  | ⟨pattern, body, _⟩ => by
    simp only [WhenCase.mapSpans, WhenCase.print, Expr.print_mapSpans indent pattern,
      CaseBody.print_mapSpans indent body]

theorem CaseBody.printElse_mapSpans (indent : Nat) : ∀ body : Option CaseBody,
    CaseBody.printElse indent (CaseBody.mapSpansOption f body) = CaseBody.printElse indent body
  | none => rfl
  | some body => by
    simp only [CaseBody.mapSpansOption, CaseBody.printElse, CaseBody.print_mapSpans indent body]

theorem CaseBody.print_mapSpans (indent : Nat) :
    ∀ b : CaseBody, (b.mapSpans f).print indent = b.print indent
  | .block body => Block.print_mapSpans indent body
  | .arrow st => congrArg ("-> " ++ ·) (Statement.print_mapSpans indent st)

end

end Trees

/-- The parentheses around an expression do not depend on where it stands. -/
theorem Expr.ungrouped_mapSpans (f : Span → Span) :
    ∀ e : Expr, (e.mapSpans f).ungrouped = e.ungrouped.mapSpans f
  | ⟨.group inner, _⟩ => by
    simp only [Expr.mapSpans, ExprKind.mapSpans, Expr.ungrouped, Expr.ungrouped_mapSpans f inner]
  | ⟨.name _, _⟩ => rfl
  | ⟨.literal _, _⟩ => rfl
  | ⟨.unary _ _, _⟩ => rfl
  | ⟨.binary _ _ _ _, _⟩ => rfl
  | ⟨.comparison _ _ _ _, _⟩ => rfl
  | ⟨.call _ _ _, _⟩ => rfl
  | ⟨.pair _ _, _⟩ => rfl
  | ⟨.object _, _⟩ => rfl
  | ⟨.array _, _⟩ => rfl
  | ⟨.transition _ _, _⟩ => rfl
  | ⟨.ifExpr _, _⟩ => rfl
  | ⟨.whenExpr _, _⟩ => rfl

end Script
