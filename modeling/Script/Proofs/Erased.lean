import Script.Tree.Spans

/-!
Maps of spans one after the other are one map, so a tree that was moved is the same tree once its
spans are erased.
-/
namespace Script

section Leaves

variable (f g : Span → Span)

@[simp] theorem Ident.mapSpans_comp :
    Ident.mapSpans g ∘ Ident.mapSpans f = Ident.mapSpans (g ∘ f) := rfl

@[simp] theorem Name.mapSpans_comp : Name.mapSpans g ∘ Name.mapSpans f = Name.mapSpans (g ∘ f) := by
  funext n
  simp [Name.mapSpans]

@[simp] theorem TypeRef.mapSpans_comp :
    TypeRef.mapSpans g ∘ TypeRef.mapSpans f = TypeRef.mapSpans (g ∘ f) := by
  funext t
  obtain ⟨kind, span⟩ := t
  cases kind with
  | primitive => rfl
  | named n =>
    have hname := congrFun (Name.mapSpans_comp f g) n
    simpa [TypeRef.mapSpans, TypeKind.mapSpans] using hname

@[simp] theorem Param.mapSpans_comp :
    Param.mapSpans g ∘ Param.mapSpans f = Param.mapSpans (g ∘ f) := by
  funext p
  simp [Param.mapSpans, Ident.mapSpans]

@[simp] theorem Property.mapSpans_comp :
    Property.mapSpans g ∘ Property.mapSpans f = Property.mapSpans (g ∘ f) := by
  funext p
  have hname := congrFun (Name.mapSpans_comp f g) p.name
  simpa [Property.mapSpans] using hname

@[simp] theorem FieldDecl.mapSpans_comp :
    FieldDecl.mapSpans g ∘ FieldDecl.mapSpans f = FieldDecl.mapSpans (g ∘ f) := by
  funext d
  have htype := congrFun (TypeRef.mapSpans_comp f g) d.type
  simpa [FieldDecl.mapSpans, Ident.mapSpans] using htype

@[simp] theorem Ident.mapSpans_mapSpans (i : Ident) :
    (i.mapSpans f).mapSpans g = i.mapSpans (g ∘ f) := rfl

@[simp] theorem Name.mapSpans_mapSpans (n : Name) :
    (n.mapSpans f).mapSpans g = n.mapSpans (g ∘ f) :=
  congrFun (Name.mapSpans_comp f g) n

@[simp] theorem UseDecl.mapSpans_mapSpans (d : UseDecl) :
    (d.mapSpans f).mapSpans g = d.mapSpans (g ∘ f) := by
  simp [UseDecl.mapSpans]

@[simp] theorem TypeDecl.mapSpans_mapSpans (d : TypeDecl) :
    (d.mapSpans f).mapSpans g = d.mapSpans (g ∘ f) := by
  simp [TypeDecl.mapSpans]

end Leaves

section Trees

variable (f g : Span → Span)

mutual

theorem Expr.mapSpans_mapSpans : ∀ x : Expr, (x.mapSpans f).mapSpans g = x.mapSpans (g ∘ f)
  | ⟨kind, span⟩ => congrArg (Expr.mk · (g (f span))) (ExprKind.mapSpans_mapSpans kind)

theorem Expr.mapSpansEach_mapSpansEach : ∀ x : List Expr,
    Expr.mapSpansEach g (Expr.mapSpansEach f x) = Expr.mapSpansEach (g ∘ f) x
  | [] => rfl
  | e :: es => by
    simp only [Expr.mapSpansEach, Expr.mapSpans_mapSpans e, Expr.mapSpansEach_mapSpansEach es]

theorem Expr.mapSpansOption_mapSpansOption : ∀ x : Option Expr,
    Expr.mapSpansOption g (Expr.mapSpansOption f x) = Expr.mapSpansOption (g ∘ f) x
  | none => rfl
  | some e => congrArg some (Expr.mapSpans_mapSpans e)

theorem ExprKind.mapSpans_mapSpans : ∀ x : ExprKind, (x.mapSpans f).mapSpans g = x.mapSpans (g ∘ f)
  | .name n => congrArg ExprKind.name (n.mapSpans_mapSpans f g)
  | .literal l => congrArg ExprKind.literal (Literal.mapSpans_mapSpans l)
  | .unary op operand => congrArg (ExprKind.unary op) (Expr.mapSpans_mapSpans operand)
  | .binary _ _ left right => by
    simp only [ExprKind.mapSpans, Expr.mapSpans_mapSpans left, Expr.mapSpans_mapSpans right]
  | .comparison _ _ left right => by
    simp only [ExprKind.mapSpans, Expr.mapSpans_mapSpans left, Expr.mapSpans_mapSpans right]
  | .call callee args body => by
    simp only [ExprKind.mapSpans, Expr.mapSpans_mapSpans callee,
      Expr.mapSpansEach_mapSpansEach args, Block.mapSpansOption_mapSpansOption body]
  | .group inner => congrArg ExprKind.group (Expr.mapSpans_mapSpans inner)
  | .pair key value => by
    simp only [ExprKind.mapSpans, PairKey.mapSpans_mapSpans key, Expr.mapSpans_mapSpans value]
  | .object entries => congrArg ExprKind.object (Statement.mapSpansEach_mapSpansEach entries)
  | .array items => congrArg ExprKind.array (Expr.mapSpansEach_mapSpansEach items)
  | .transition source target => by
    simp only [ExprKind.mapSpans, Name.mapSpans_mapSpans]
  | .ifExpr stmt => congrArg ExprKind.ifExpr (IfStmt.mapSpans_mapSpans stmt)
  | .whenExpr stmt => congrArg ExprKind.whenExpr (WhenStmt.mapSpans_mapSpans stmt)

theorem PairKey.mapSpans_mapSpans : ∀ x : PairKey, (x.mapSpans f).mapSpans g = x.mapSpans (g ∘ f)
  | .name n => congrArg PairKey.name (n.mapSpans_mapSpans f g)
  | .string l => congrArg PairKey.string (StringLiteral.mapSpans_mapSpans l)

theorem Literal.mapSpans_mapSpans : ∀ x : Literal, (x.mapSpans f).mapSpans g = x.mapSpans (g ∘ f)
  | .number _ _ => rfl
  | .string l => congrArg Literal.string (StringLiteral.mapSpans_mapSpans l)
  | .bool _ => rfl
  | .null => rfl
  | .nil => rfl

theorem StringLiteral.mapSpans_mapSpans : ∀ x : StringLiteral,
    (x.mapSpans f).mapSpans g = x.mapSpans (g ∘ f)
  | ⟨form, parts, span⟩ =>
    congrArg (StringLiteral.mk form · (g (f span))) (StringPart.mapSpansEach_mapSpansEach parts)

theorem StringPart.mapSpans_mapSpans : ∀ x : StringPart,
    (x.mapSpans f).mapSpans g = x.mapSpans (g ∘ f)
  | .text _ => rfl
  | .nameHole n => congrArg StringPart.nameHole (n.mapSpans_mapSpans f g)
  | .exprHole e => congrArg StringPart.exprHole (Expr.mapSpans_mapSpans e)

theorem StringPart.mapSpansEach_mapSpansEach : ∀ x : List StringPart,
    StringPart.mapSpansEach g (StringPart.mapSpansEach f x) = StringPart.mapSpansEach (g ∘ f) x
  | [] => rfl
  | p :: ps => by
    simp only [StringPart.mapSpansEach, StringPart.mapSpans_mapSpans p,
      StringPart.mapSpansEach_mapSpansEach ps]

theorem Block.mapSpans_mapSpans : ∀ x : Block, (x.mapSpans f).mapSpans g = x.mapSpans (g ∘ f)
  | ⟨statements, span⟩ =>
    congrArg (Block.mk · (g (f span))) (Statement.mapSpansEach_mapSpansEach statements)

theorem Block.mapSpansOption_mapSpansOption : ∀ x : Option Block,
    Block.mapSpansOption g (Block.mapSpansOption f x) = Block.mapSpansOption (g ∘ f) x
  | none => rfl
  | some body => congrArg some (Block.mapSpans_mapSpans body)

theorem Statement.mapSpans_mapSpans : ∀ x : Statement,
    (x.mapSpans f).mapSpans g = x.mapSpans (g ∘ f)
  | ⟨kind, span⟩ => congrArg (Statement.mk · (g (f span))) (StatementKind.mapSpans_mapSpans kind)

theorem Statement.mapSpansEach_mapSpansEach : ∀ x : List Statement,
    Statement.mapSpansEach g (Statement.mapSpansEach f x) = Statement.mapSpansEach (g ∘ f) x
  | [] => rfl
  | s :: ss => by
    simp only [Statement.mapSpansEach, Statement.mapSpans_mapSpans s,
      Statement.mapSpansEach_mapSpansEach ss]

theorem StatementKind.mapSpans_mapSpans : ∀ x : StatementKind,
    (x.mapSpans f).mapSpans g = x.mapSpans (g ∘ f)
  | .modDecl name body => by
    simp only [StatementKind.mapSpans, Name.mapSpans_mapSpans, Block.mapSpans_mapSpans body]
  | .useDecl d => congrArg StatementKind.useDecl (d.mapSpans_mapSpans f g)
  | .importDecl d => congrArg StatementKind.importDecl (ImportDecl.mapSpans_mapSpans d)
  | .varDecl d => congrArg StatementKind.varDecl (VarDecl.mapSpans_mapSpans d)
  | .fnDecl d => congrArg StatementKind.fnDecl (FnDecl.mapSpans_mapSpans d)
  | .nodeDecl d => congrArg StatementKind.nodeDecl (NodeDecl.mapSpans_mapSpans d)
  | .assign target value => by
    simp only [StatementKind.mapSpans, Name.mapSpans_mapSpans, Expr.mapSpans_mapSpans value]
  | .ifStmt s => congrArg StatementKind.ifStmt (IfStmt.mapSpans_mapSpans s)
  | .forStmt s => congrArg StatementKind.forStmt (ForStmt.mapSpans_mapSpans s)
  | .whenStmt s => congrArg StatementKind.whenStmt (WhenStmt.mapSpans_mapSpans s)
  | .uiBlock b => congrArg StatementKind.uiBlock (Block.mapSpans_mapSpans b)
  | .styleBlock b => congrArg StatementKind.styleBlock (Block.mapSpans_mapSpans b)
  | .typeDecl d => congrArg StatementKind.typeDecl (d.mapSpans_mapSpans f g)
  | .enumDecl d => congrArg StatementKind.enumDecl (EnumDecl.mapSpans_mapSpans d)
  | .breakStmt => rfl
  | .expr e => congrArg StatementKind.expr (Expr.mapSpans_mapSpans e)

theorem ImportDecl.mapSpans_mapSpans : ∀ x : ImportDecl,
    (x.mapSpans f).mapSpans g = x.mapSpans (g ∘ f)
  | ⟨path, none, _⟩ => by
    simp only [ImportDecl.mapSpans, Name.mapSpans_mapSpans, Function.comp_apply]
  | ⟨path, some args, _⟩ => by
    simp only [ImportDecl.mapSpans, Name.mapSpans_mapSpans, Expr.mapSpansEach_mapSpansEach args,
      Function.comp_apply]

theorem VarDecl.mapSpans_mapSpans : ∀ x : VarDecl, (x.mapSpans f).mapSpans g = x.mapSpans (g ∘ f)
  | ⟨_, _, _, value, _⟩ => by
    simp only [VarDecl.mapSpans, Ident.mapSpans_mapSpans, Option.map_map, TypeRef.mapSpans_comp,
      Expr.mapSpans_mapSpans value, Function.comp_apply]

theorem VarDecl.mapSpansEach_mapSpansEach : ∀ x : List VarDecl,
    VarDecl.mapSpansEach g (VarDecl.mapSpansEach f x) = VarDecl.mapSpansEach (g ∘ f) x
  | [] => rfl
  | d :: ds => by
    simp only [VarDecl.mapSpansEach, VarDecl.mapSpans_mapSpans d,
      VarDecl.mapSpansEach_mapSpansEach ds]

theorem FnDecl.mapSpans_mapSpans : ∀ x : FnDecl, (x.mapSpans f).mapSpans g = x.mapSpans (g ∘ f)
  | ⟨_, _, _, body, _⟩ => by
    simp only [FnDecl.mapSpans, Name.mapSpans_mapSpans, List.map_map, Param.mapSpans_comp,
      Option.map_map, TypeRef.mapSpans_comp, FnBody.mapSpans_mapSpans body, Function.comp_apply]

theorem FnBody.mapSpans_mapSpans : ∀ x : FnBody, (x.mapSpans f).mapSpans g = x.mapSpans (g ∘ f)
  | .block b => congrArg FnBody.block (Block.mapSpans_mapSpans b)
  | .expr e => congrArg FnBody.expr (Expr.mapSpans_mapSpans e)

theorem NodeDecl.mapSpans_mapSpans : ∀ x : NodeDecl, (x.mapSpans f).mapSpans g = x.mapSpans (g ∘ f)
  | ⟨_, _, none, _⟩ => by
    simp only [NodeDecl.mapSpans, Name.mapSpans_mapSpans, List.map_map, Property.mapSpans_comp,
      Function.comp_apply]
  | ⟨_, _, some entries, _⟩ => by
    simp only [NodeDecl.mapSpans, Name.mapSpans_mapSpans, List.map_map, Property.mapSpans_comp,
      Statement.mapSpansEach_mapSpansEach entries, Function.comp_apply]

theorem EnumDecl.mapSpans_mapSpans : ∀ x : EnumDecl, (x.mapSpans f).mapSpans g = x.mapSpans (g ∘ f)
  | ⟨_, members, _⟩ => by
    simp only [EnumDecl.mapSpans, Ident.mapSpans_mapSpans,
      EnumMember.mapSpansEach_mapSpansEach members, Function.comp_apply]

theorem EnumMember.mapSpans_mapSpans : ∀ x : EnumMember,
    (x.mapSpans f).mapSpans g = x.mapSpans (g ∘ f)
  | ⟨_, value, _⟩ => by
    simp only [EnumMember.mapSpans, Ident.mapSpans_mapSpans,
      Expr.mapSpansOption_mapSpansOption value, Function.comp_apply]

theorem EnumMember.mapSpansEach_mapSpansEach : ∀ x : List EnumMember,
    EnumMember.mapSpansEach g (EnumMember.mapSpansEach f x) = EnumMember.mapSpansEach (g ∘ f) x
  | [] => rfl
  | m :: ms => by
    simp only [EnumMember.mapSpansEach, EnumMember.mapSpans_mapSpans m,
      EnumMember.mapSpansEach_mapSpansEach ms]

theorem IfStmt.mapSpans_mapSpans : ∀ x : IfStmt, (x.mapSpans f).mapSpans g = x.mapSpans (g ∘ f)
  | ⟨condition, body, elseIfs, elseBody, _⟩ => by
    simp only [IfStmt.mapSpans, Expr.mapSpans_mapSpans condition, Block.mapSpans_mapSpans body,
      ElseIf.mapSpansEach_mapSpansEach elseIfs, Block.mapSpansOption_mapSpansOption elseBody,
      Function.comp_apply]

theorem ElseIf.mapSpans_mapSpans : ∀ x : ElseIf, (x.mapSpans f).mapSpans g = x.mapSpans (g ∘ f)
  | ⟨condition, body, _⟩ => by
    simp only [ElseIf.mapSpans, Expr.mapSpans_mapSpans condition, Block.mapSpans_mapSpans body,
      Function.comp_apply]

theorem ElseIf.mapSpansEach_mapSpansEach : ∀ x : List ElseIf,
    ElseIf.mapSpansEach g (ElseIf.mapSpansEach f x) = ElseIf.mapSpansEach (g ∘ f) x
  | [] => rfl
  | e :: es => by
    simp only [ElseIf.mapSpansEach, ElseIf.mapSpans_mapSpans e,
      ElseIf.mapSpansEach_mapSpansEach es]

theorem ForStmt.mapSpans_mapSpans : ∀ x : ForStmt, (x.mapSpans f).mapSpans g = x.mapSpans (g ∘ f)
  | ⟨head, body, _⟩ => by
    simp only [ForStmt.mapSpans, ForHead.mapSpans_mapSpans head, Block.mapSpans_mapSpans body,
      Function.comp_apply]

theorem ForHead.mapSpans_mapSpans : ∀ x : ForHead, (x.mapSpans f).mapSpans g = x.mapSpans (g ∘ f)
  | .counted init condition => by
    simp only [ForHead.mapSpans, VarDecl.mapSpansEach_mapSpansEach init,
      Expr.mapSpansOption_mapSpansOption condition]
  | .iterate _ _ iterable => by
    simp only [ForHead.mapSpans, Option.map_map, Ident.mapSpans_comp, Ident.mapSpans_mapSpans,
      Expr.mapSpans_mapSpans iterable]

theorem WhenStmt.mapSpans_mapSpans : ∀ x : WhenStmt, (x.mapSpans f).mapSpans g = x.mapSpans (g ∘ f)
  | ⟨init, subject, cases, elseBody, _⟩ => by
    simp only [WhenStmt.mapSpans, VarDecl.mapSpansEach_mapSpansEach init,
      Expr.mapSpans_mapSpans subject, WhenCase.mapSpansEach_mapSpansEach cases,
      CaseBody.mapSpansOption_mapSpansOption elseBody, Function.comp_apply]

theorem WhenCase.mapSpans_mapSpans : ∀ x : WhenCase, (x.mapSpans f).mapSpans g = x.mapSpans (g ∘ f)
  | ⟨pattern, body, _⟩ => by
    simp only [WhenCase.mapSpans, Expr.mapSpans_mapSpans pattern, CaseBody.mapSpans_mapSpans body,
      Function.comp_apply]

theorem WhenCase.mapSpansEach_mapSpansEach : ∀ x : List WhenCase,
    WhenCase.mapSpansEach g (WhenCase.mapSpansEach f x) = WhenCase.mapSpansEach (g ∘ f) x
  | [] => rfl
  | c :: cs => by
    simp only [WhenCase.mapSpansEach, WhenCase.mapSpans_mapSpans c,
      WhenCase.mapSpansEach_mapSpansEach cs]

theorem CaseBody.mapSpans_mapSpans : ∀ x : CaseBody, (x.mapSpans f).mapSpans g = x.mapSpans (g ∘ f)
  | .block b => congrArg CaseBody.block (Block.mapSpans_mapSpans b)
  | .arrow s => congrArg CaseBody.arrow (Statement.mapSpans_mapSpans s)

theorem CaseBody.mapSpansOption_mapSpansOption : ∀ x : Option CaseBody,
    CaseBody.mapSpansOption g (CaseBody.mapSpansOption f x) = CaseBody.mapSpansOption (g ∘ f) x
  | none => rfl
  | some body => congrArg some (CaseBody.mapSpans_mapSpans body)

end

end Trees

/-- Where a tree stood is not told once its spans are erased. -/
theorem Expr.erase_mapSpans (f : Span → Span) (e : Expr) : (e.mapSpans f).erase = e.erase :=
  Expr.mapSpans_mapSpans f (fun _ => default) e

end Script
