import Script.Proofs.Printed.Uniform
import Script.Tree.Texts

/-!
Indentation is uniform. A node written some levels deeper is the same text with the blanks of these
levels after each of its line feeds, whatever the node is, if none of the texts it writes as they
stand has a line feed of its own.
-/
namespace Script

open Layout

section Leaves

theorem UnaryOp.oneLine_symbol (op : UnaryOp) : OneLine op.symbol := by
  cases op <;> decide

theorem BinaryOp.oneLine_symbol (op : BinaryOp) : OneLine op.symbol := by
  cases op <;> decide

theorem CompareOp.oneLine_symbol (op : CompareOp) : OneLine op.symbol := by
  cases op <;> decide

theorem BindingKind.oneLine_word (b : BindingKind) : OneLine b.word := by
  cases b <;> decide

theorem PrimitiveType.oneLine_word (t : PrimitiveType) : OneLine t.word := by
  cases t <;> decide

theorem StringForm.oneLine_opener (form : StringForm) : OneLine (String.ofList form.opener) := by
  cases form <;> decide

theorem StringForm.oneLine_closer (form : StringForm) : OneLine (String.ofList form.closer) := by
  cases form <;> decide

/-- Only the tick form writes a line feed in place of an escape. -/
theorem StringForm.eq_formattedTick_of_lineFeed_mem {form : StringForm} {c : Char}
    (h : '\n' ∈ form.escapeChar c) : c = '\n' ∧ form = .formattedTick := by
  by_cases hc : c = '\n'
  · subst hc
    revert h
    cases form <;> decide
  · exact absurd h (by grind [escapeChar])

theorem StringForm.oneLine_escape {form : StringForm} {text : String}
    (h : form.keepsLines = true → OneLine text) :
    OneLine (String.ofList (form.escape text.toList)) := by
  rw [OneLine, String.toList_ofList, escape]
  split
  · intro hmem
    obtain ⟨c, hc, hfeed⟩ := List.mem_flatMap.1 hmem
    obtain ⟨rfl, rfl⟩ := eq_formattedTick_of_lineFeed_mem hfeed
    exact h rfl hc
  · next hraw => exact h (by cases form <;> simp_all [hasEscapes, keepsLines])

theorem Name.uniform (n : Name) (h : ∀ s ∈ n.texts, OneLine s) : Uniform fun _ => n.path := by
  have hdot : OneLine (if n.relative then "." else "") := by split <;> decide
  refine .after _ (UniformEach.intercalate (by decide) (.map fun i hi => .text _ ?_)) hdot
  exact h i.text (List.mem_map_of_mem hi)

theorem Name.uniform_hole (n : Name) (next : List StringPart) (h : ∀ s ∈ n.texts, OneLine s) :
    Uniform fun _ => n.printHole next := by
  have hbare : Uniform fun _ => "$" ++ n.path := .after _ (n.uniform h)
  unfold printHole
  split
  · split
    · simp only [String.append_assoc]
      exact .after _ ((n.uniform h).append (.text _))
    · exact hbare
  · exact hbare

theorem TypeRef.uniform (t : TypeRef) (h : ∀ s ∈ t.texts, OneLine s) : Uniform fun _ => t.path := by
  obtain ⟨kind, span⟩ := t
  cases kind with
  | primitive type => exact .text _ type.oneLine_word
  | named name => exact name.uniform h

theorem TypeRef.uniform_annotation (o : Option TypeRef) (h : ∀ s ∈ textsOption o, OneLine s) :
    Uniform fun _ => annotation o := by
  cases o with
  | none => exact .text _
  | some t => exact .after _ (t.uniform h)

theorem UseDecl.uniform (d : UseDecl) (h : ∀ s ∈ d.texts, OneLine s) : Uniform fun _ => d.print := by
  simp only [texts, List.forall_mem_append, List.forall_mem_flatMap] at h
  have hsubs : Uniform fun _ =>
      if d.subs.isEmpty then "" else ": " ++ commaSeparated (d.subs.map Name.path) := by
    split
    · exact .text _
    · exact .after _ (UniformEach.map fun n hn => n.uniform (h.2 n hn)).commaSeparated
  simp only [print, String.append_assoc]
  exact .after _ ((d.path.uniform h.1).append hsubs)

theorem Param.uniform (p : Param) (h : ∀ s ∈ p.texts, OneLine s) : Uniform fun _ => p.print := by
  simp only [texts, List.forall_mem_cons] at h
  exact .after _ (TypeRef.uniform_annotation p.type h.2) h.1

theorem Property.uniform (p : Property) (h : ∀ s ∈ p.texts, OneLine s) :
    Uniform fun _ => p.print := by
  simp only [texts, List.forall_mem_append] at h
  exact (p.name.uniform h.1).append (TypeRef.uniform_annotation p.type h.2)

theorem FieldDecl.uniform (d : FieldDecl) (h : ∀ s ∈ d.texts, OneLine s) :
    Uniform fun _ => d.name.text ++ ": " ++ d.type.path := by
  simp only [texts, List.forall_mem_cons] at h
  simp only [String.append_assoc]
  exact .after _ (.after _ (d.type.uniform h.2)) h.1

theorem TypeDecl.uniform (d : TypeDecl) (h : ∀ s ∈ d.texts, OneLine s) :
    Uniform fun i => d.print i := by
  simp only [texts, List.forall_mem_cons, List.forall_mem_flatMap] at h
  have hlines := (UniformEach.map fun f hf => FieldDecl.uniform f (h.2 f hf)).ownLines
  have hopen : " \x7b\n" = " \x7b" ++ "\n" := rfl
  simp only [List.map_map, Function.comp_def, String.append_assoc] at hlines
  simp only [print, hopen, String.append_assoc]
  exact .after _ (.after _ (.after _ hlines.deeper.closed) h.1)

end Leaves

section Trees

-- The induction is on the tree. What is around its parts is written on one line, so line feeds come
-- from lines in braces only, and their margins have the level of the node and one more.
mutual

theorem Expr.uniform : ∀ e : Expr, (∀ s ∈ e.texts, OneLine s) → Uniform fun i => e.print i
  | ⟨kind, _⟩, h => kind.uniform h

theorem Expr.uniform_each :
    ∀ es : List Expr, (∀ s ∈ Expr.textsEach es, OneLine s) →
      UniformEach fun i => Expr.printEach i es
  | [], _ => by
    simp only [Expr.printEach]
    exact .nil
  | e :: es, h => by
    simp only [Expr.textsEach, List.forall_mem_append] at h
    simp only [Expr.printEach]
    exact .cons (e.uniform h.1) (Expr.uniform_each es h.2)

theorem ExprKind.uniform :
    ∀ k : ExprKind, (∀ s ∈ k.texts, OneLine s) → Uniform fun i => k.print i
  | .name name, h => name.uniform h
  | .literal literal, h => literal.uniform h
  | .unary op operand, h => by
    simp only [ExprKind.print]
    exact .after _ (operand.uniform h) op.oneLine_symbol
  | .binary op _ left right, h => by
    simp only [ExprKind.texts, List.forall_mem_append] at h
    simp only [ExprKind.print, String.append_assoc]
    refine (left.uniform h.1).append (.after _ (.after _ ?_ op.oneLine_symbol))
    exact .after _ (right.uniform h.2)
  | .comparison op _ left right, h => by
    simp only [ExprKind.texts, List.forall_mem_append] at h
    simp only [ExprKind.print, String.append_assoc]
    refine (left.uniform h.1).append (.after _ (.after _ ?_ op.oneLine_symbol))
    exact .after _ (right.uniform h.2)
  | .call callee args body, h => by
    simp only [ExprKind.texts, List.forall_mem_append] at h
    simp only [ExprKind.print, String.append_assoc]
    have hargs := (Expr.uniform_each args h.2.1).commaSeparated
    have hbody := Block.uniform_trailing body h.2.2
    exact (callee.uniform h.1).append (.after _ (hargs.append (.after _ hbody)))
  | .group inner, h => by
    simp only [ExprKind.print, String.append_assoc]
    exact .after _ ((inner.uniform h).append (.text _))
  | .pair key value, h => by
    simp only [ExprKind.texts, List.forall_mem_append] at h
    simp only [ExprKind.print, String.append_assoc]
    exact (key.uniform h.1).append (.after _ (value.uniform h.2))
  | .object entries, h => by
    simp only [ExprKind.print, String.append_assoc]
    have hentries := (Statement.uniform_each entries h).commaSeparated
    exact .after _ (hentries.append (.text _))
  | .array items, h => by
    simp only [ExprKind.print, String.append_assoc]
    have hitems := (Expr.uniform_each items h).commaSeparated
    exact .after _ (hitems.append (.text _))
  | .transition source target, h => by
    simp only [ExprKind.texts, List.forall_mem_append] at h
    simp only [ExprKind.print, String.append_assoc]
    exact (source.uniform h.1).append (.after _ (target.uniform h.2))
  | .ifExpr stmt, h => stmt.uniform h
  | .whenExpr stmt, h => stmt.uniform h

theorem Block.uniform_trailing :
    ∀ o : Option Block, (∀ s ∈ Block.textsOption o, OneLine s) →
      Uniform fun i => Block.printTrailing i o
  | none, _ => by
    simp only [Block.printTrailing]
    exact .text _
  | some block, h => by
    simp only [Block.printTrailing]
    exact .after _ (block.uniform h)

theorem PairKey.uniform :
    ∀ k : PairKey, (∀ s ∈ k.texts, OneLine s) → Uniform fun i => k.print i
  | .name name, h => name.uniform h
  | .string literal, h => literal.uniform h

theorem Literal.uniform :
    ∀ l : Literal, (∀ s ∈ l.texts, OneLine s) → Uniform fun i => l.print i
  | .number _ raw, h => by
    simp only [Literal.texts, List.forall_mem_singleton] at h
    simp only [Literal.print]
    exact .text _ h
  | .string literal, h => literal.uniform h
  | .bool true, _ | .bool false, _ | .null, _ | .nil, _ => by
    simp only [Literal.print]
    exact .text _

theorem StringLiteral.uniform :
    ∀ l : StringLiteral, (∀ s ∈ l.texts, OneLine s) → Uniform fun i => l.print i
  | ⟨form, parts, _⟩, h => by
    simp only [StringLiteral.print, String.append_assoc]
    have hparts := StringPart.uniform_each form parts h
    exact .after _ (hparts.append (.text _ form.oneLine_closer)) form.oneLine_opener

theorem StringPart.uniform_each (form : StringForm) :
    ∀ ps : List StringPart, (∀ s ∈ StringPart.textsEach form ps, OneLine s) →
      Uniform fun i => StringPart.printEach form i ps
  | [], _ => by
    simp only [StringPart.printEach]
    exact .text _
  | p :: ps, h => by
    simp only [StringPart.textsEach, List.forall_mem_append] at h
    simp only [StringPart.printEach]
    exact (p.uniform form ps h.1).append (StringPart.uniform_each form ps h.2)

theorem StringPart.uniform (form : StringForm) (next : List StringPart) :
    ∀ p : StringPart, (∀ s ∈ p.texts form, OneLine s) → Uniform fun i => p.print form i next
  | .text text, h => by
    simp only [StringPart.texts] at h
    simp only [StringPart.print]
    refine .text _ (StringForm.oneLine_escape fun hkeeps => h text ?_)
    rw [if_pos hkeeps]
    exact List.mem_singleton_self text
  | .nameHole name, h => by
    simp only [StringPart.print]
    exact name.uniform_hole next h
  | .exprHole expr, h => by
    simp only [StringPart.print, String.append_assoc]
    exact .after _ ((expr.uniform h).append (.text _))

theorem Block.uniform : ∀ b : Block, (∀ s ∈ b.texts, OneLine s) → Uniform fun i => b.print i
  | ⟨statements, _⟩, h => by
    simp only [Block.print]
    exact (Statement.uniform_each statements h).braced

theorem Statement.uniform :
    ∀ s : Statement, (∀ t ∈ s.texts, OneLine t) → Uniform fun i => s.print i
  | ⟨kind, _⟩, h => kind.uniform h

theorem Statement.uniform_each :
    ∀ ss : List Statement, (∀ t ∈ Statement.textsEach ss, OneLine t) →
      UniformEach fun i => Statement.printEach i ss
  | [], _ => by
    simp only [Statement.printEach]
    exact .nil
  | s :: ss, h => by
    simp only [Statement.textsEach, List.forall_mem_append] at h
    simp only [Statement.printEach]
    exact .cons (s.uniform h.1) (Statement.uniform_each ss h.2)

theorem StatementKind.uniform :
    ∀ k : StatementKind, (∀ s ∈ k.texts, OneLine s) → Uniform fun i => k.print i
  | .modDecl name body, h => by
    simp only [StatementKind.texts, List.forall_mem_append] at h
    simp only [StatementKind.print, String.append_assoc]
    exact .after _ ((name.uniform h.1).append (.after _ (body.uniform h.2)))
  | .useDecl decl, h => decl.uniform h
  | .importDecl decl, h => decl.uniform h
  | .varDecl decl, h => decl.uniform h
  | .fnDecl decl, h => decl.uniform h
  | .nodeDecl decl, h => decl.uniform h
  | .assign target value, h => by
    simp only [StatementKind.texts, List.forall_mem_append] at h
    simp only [StatementKind.print, String.append_assoc]
    exact (target.uniform h.1).append (.after _ (value.uniform h.2))
  | .ifStmt stmt, h => stmt.uniform h
  | .forStmt stmt, h => stmt.uniform h
  | .whenStmt stmt, h => stmt.uniform h
  | .uiBlock body, h => by
    simp only [StatementKind.print]
    exact .after _ (body.uniform h)
  | .styleBlock body, h => by
    simp only [StatementKind.print]
    exact .after _ (body.uniform h)
  | .typeDecl decl, h => decl.uniform h
  | .enumDecl decl, h => decl.uniform h
  | .breakStmt, _ => by
    simp only [StatementKind.print]
    exact .text _
  | .expr expr, h => expr.uniform h

theorem ImportDecl.uniform :
    ∀ d : ImportDecl, (∀ s ∈ d.texts, OneLine s) → Uniform fun i => d.print i
  | ⟨path, none, _⟩, h => by
    simp only [ImportDecl.print, ImportDecl.printArgs, String.append_assoc]
    exact .after _ ((path.uniform h).append (.text _))
  | ⟨path, some args, _⟩, h => by
    simp only [ImportDecl.texts, List.forall_mem_append] at h
    simp only [ImportDecl.print, ImportDecl.printArgs, String.append_assoc]
    have hargs := (Expr.uniform_each args h.2).commaSeparated
    exact .after _ ((path.uniform h.1).append (.after _ (hargs.append (.text _))))

theorem VarDecl.uniform :
    ∀ d : VarDecl, (∀ s ∈ d.texts, OneLine s) → Uniform fun i => d.print i
  | ⟨binding, name, type, value, _⟩, h => by
    simp only [VarDecl.texts, List.forall_mem_append, List.forall_mem_cons] at h
    simp only [VarDecl.print, String.append_assoc]
    refine .after _ (.after _ (.after _ ?_ h.1)) binding.oneLine_word
    exact (TypeRef.uniform_annotation type h.2.1).append (.after _ (value.uniform h.2.2))

theorem VarDecl.uniform_init :
    ∀ ds : List VarDecl, (∀ s ∈ VarDecl.textsEach ds, OneLine s) →
      Uniform fun i => VarDecl.printInit i ds
  | [], _ => by
    simp only [VarDecl.printInit]
    exact .text _
  | d :: ds, h => by
    simp only [VarDecl.textsEach, List.forall_mem_append] at h
    simp only [VarDecl.printInit, String.append_assoc]
    exact (d.uniform h.1).append (.after _ (VarDecl.uniform_init ds h.2))

theorem FnDecl.uniform : ∀ d : FnDecl, (∀ s ∈ d.texts, OneLine s) → Uniform fun i => d.print i
  | ⟨name, params, result, body, _⟩, h => by
    simp only [FnDecl.texts, List.forall_mem_append, List.forall_mem_flatMap] at h
    obtain ⟨hname, hparams, hresult, hbody⟩ := h
    simp only [FnDecl.print, String.append_assoc]
    have hlist := (UniformEach.map fun p hp => Param.uniform p (hparams p hp)).commaSeparated
    refine .after _ ((name.uniform hname).append (.after _ (hlist.append (.after _ ?_))))
    exact (TypeRef.uniform_annotation result hresult).append (body.uniform hbody)

theorem FnBody.uniform : ∀ b : FnBody, (∀ s ∈ b.texts, OneLine s) → Uniform fun i => b.print i
  | .block block, h => by
    simp only [FnBody.print]
    exact .after _ (block.uniform h)
  | .expr expr, h => by
    simp only [FnBody.print]
    exact .after _ (expr.uniform h)

theorem NodeDecl.uniform :
    ∀ d : NodeDecl, (∀ s ∈ d.texts, OneLine s) → Uniform fun i => d.print i
  | ⟨name, props, none, _⟩, h => by
    simp only [NodeDecl.texts, List.forall_mem_append, List.forall_mem_flatMap] at h
    simp only [NodeDecl.print, NodeDecl.printBody, String.append_assoc]
    have hlist := (UniformEach.map fun p hp => Property.uniform p (h.2 p hp)).commaSeparated
    refine .after _ ((name.uniform h.1).append (.after _ (hlist.append (.after _ ?_))))
    exact .text _
  | ⟨name, props, some entries, _⟩, h => by
    simp only [NodeDecl.texts, List.forall_mem_append, List.forall_mem_flatMap] at h
    simp only [NodeDecl.print, NodeDecl.printBody, String.append_assoc]
    have hlist := (UniformEach.map fun p hp => Property.uniform p (h.2.1 p hp)).commaSeparated
    refine .after _ ((name.uniform h.1).append (.after _ (hlist.append (.after _ ?_))))
    exact .after _ (Statement.uniform_each entries h.2.2).braced

theorem EnumDecl.uniform :
    ∀ d : EnumDecl, (∀ s ∈ d.texts, OneLine s) → Uniform fun i => d.print i
  | ⟨name, members, _⟩, h => by
    simp only [EnumDecl.texts, List.forall_mem_cons] at h
    have hopen : " \x7b\n" = " \x7b" ++ "\n" := rfl
    simp only [EnumDecl.print, hopen, String.append_assoc]
    have hlines := (EnumMember.uniform_lines members h.2).deeper.closed
    exact .after _ (.after _ (.after _ hlines) h.1)

theorem EnumMember.uniform_lines :
    ∀ ms : List EnumMember, (∀ s ∈ EnumMember.textsEach ms, OneLine s) →
      UniformLines fun i => EnumMember.printLines i ms
  | [], _ => by
    simp only [EnumMember.printLines]
    exact .nil
  | m :: ms, h => by
    simp only [EnumMember.textsEach, List.forall_mem_append] at h
    simp only [EnumMember.printLines]
    exact (m.uniform h.1).line.append (EnumMember.uniform_lines ms h.2)

theorem EnumMember.uniform :
    ∀ m : EnumMember, (∀ s ∈ m.texts, OneLine s) → Uniform fun i => m.print i
  | ⟨name, none, _⟩, h => by
    simp only [EnumMember.texts, List.forall_mem_cons] at h
    simp only [EnumMember.print]
    exact .text _ h.1
  | ⟨name, some value, _⟩, h => by
    simp only [EnumMember.texts, Expr.textsOption, List.forall_mem_cons] at h
    simp only [EnumMember.print, String.append_assoc]
    exact .after _ (.after _ (value.uniform h.2)) h.1

theorem IfStmt.uniform : ∀ s : IfStmt, (∀ t ∈ s.texts, OneLine t) → Uniform fun i => s.print i
  | ⟨condition, body, elseIfs, elseBody, _⟩, h => by
    simp only [IfStmt.texts, List.forall_mem_append] at h
    obtain ⟨hcondition, hbody, helseIfs, helse⟩ := h
    simp only [IfStmt.print, String.append_assoc]
    have htail := (ElseIf.uniform_each elseIfs helseIfs).append (Block.uniform_else elseBody helse)
    refine .after _ ((condition.uniform hcondition).append (.after _ ?_))
    exact (body.uniform hbody).append htail

theorem ElseIf.uniform_each :
    ∀ es : List ElseIf, (∀ s ∈ ElseIf.textsEach es, OneLine s) →
      Uniform fun i => ElseIf.printEach i es
  | [], _ => by
    simp only [ElseIf.printEach]
    exact .text _
  | e :: es, h => by
    simp only [ElseIf.textsEach, List.forall_mem_append] at h
    simp only [ElseIf.printEach]
    exact (e.uniform h.1).append (ElseIf.uniform_each es h.2)

theorem ElseIf.uniform : ∀ e : ElseIf, (∀ s ∈ e.texts, OneLine s) → Uniform fun i => e.print i
  | ⟨condition, body, _⟩, h => by
    simp only [ElseIf.texts, List.forall_mem_append] at h
    simp only [ElseIf.print, String.append_assoc]
    exact .after _ ((condition.uniform h.1).append (.after _ (body.uniform h.2)))

theorem Block.uniform_else :
    ∀ o : Option Block, (∀ s ∈ Block.textsOption o, OneLine s) →
      Uniform fun i => Block.printElse i o
  | none, _ => by
    simp only [Block.printElse]
    exact .text _
  | some block, h => by
    simp only [Block.printElse]
    exact .after _ (block.uniform h)

theorem ForStmt.uniform : ∀ s : ForStmt, (∀ t ∈ s.texts, OneLine t) → Uniform fun i => s.print i
  | ⟨head, body, _⟩, h => by
    simp only [ForStmt.texts, List.forall_mem_append] at h
    simp only [ForStmt.print, String.append_assoc]
    exact .after _ ((head.uniform h.1).append (body.uniform h.2))

theorem ForHead.uniform : ∀ f : ForHead, (∀ s ∈ f.texts, OneLine s) → Uniform fun i => f.print i
  | .counted init none, h => by
    simp only [ForHead.texts, List.forall_mem_append] at h
    simp only [ForHead.print]
    exact VarDecl.uniform_init init h.1
  | .counted init (some condition), h => by
    simp only [ForHead.texts, Expr.textsOption, List.forall_mem_append] at h
    simp only [ForHead.print, String.append_assoc]
    exact (VarDecl.uniform_init init h.1).append ((condition.uniform h.2).append (.text _))
  | .iterate none name iterable, h => by
    simp only [ForHead.texts, List.forall_mem_cons] at h
    simp only [ForHead.print, String.append_assoc]
    refine .after _ (.after _ ?_ h.1)
    exact .after _ ((iterable.uniform h.2).append (.text _))
  | .iterate (some index) name iterable, h => by
    simp only [ForHead.texts, List.forall_mem_cons] at h
    simp only [ForHead.print, String.append_assoc]
    refine .after _ (.after _ (.after _ ?_ h.2.1)) h.1
    exact .after _ ((iterable.uniform h.2.2).append (.text _))

theorem WhenStmt.uniform : ∀ s : WhenStmt, (∀ t ∈ s.texts, OneLine t) → Uniform fun i => s.print i
  | ⟨init, subject, cases, elseBody, _⟩, h => by
    simp only [WhenStmt.texts, List.forall_mem_append] at h
    obtain ⟨hinit, hsubject, hcases, helse⟩ := h
    have hopen : " \x7b\n" = " \x7b" ++ "\n" := rfl
    simp only [WhenStmt.print, hopen, String.append_assoc]
    have hlines := ((WhenCase.uniform_lines cases hcases).append
      (CaseBody.uniform_else elseBody helse)).deeper.closed
    simp only [String.append_assoc] at hlines
    refine .after _ ((VarDecl.uniform_init init hinit).append ?_)
    exact (subject.uniform hsubject).append (.after _ hlines)

theorem WhenCase.uniform_lines :
    ∀ cs : List WhenCase, (∀ s ∈ WhenCase.textsEach cs, OneLine s) →
      UniformLines fun i => WhenCase.printLines i cs
  | [], _ => by
    simp only [WhenCase.printLines]
    exact .nil
  | c :: cs, h => by
    simp only [WhenCase.textsEach, List.forall_mem_append] at h
    simp only [WhenCase.printLines]
    exact (c.uniform h.1).line.append (WhenCase.uniform_lines cs h.2)

theorem WhenCase.uniform :
    ∀ c : WhenCase, (∀ s ∈ c.texts, OneLine s) → Uniform fun i => c.print i
  | ⟨pattern, body, _⟩, h => by
    simp only [WhenCase.texts, List.forall_mem_append] at h
    simp only [WhenCase.print, String.append_assoc]
    exact .after _ ((pattern.uniform h.1).append (.after _ (body.uniform h.2)))

theorem CaseBody.uniform_else :
    ∀ o : Option CaseBody, (∀ s ∈ CaseBody.textsOption o, OneLine s) →
      UniformLines fun i => CaseBody.printElse i o
  | none, _ => by
    simp only [CaseBody.printElse]
    exact .nil
  | some body, h => by
    have hline := ((body.uniform h).after "else ").line
    simp only [← String.append_assoc] at hline
    simp only [CaseBody.printElse]
    exact hline

theorem CaseBody.uniform :
    ∀ b : CaseBody, (∀ s ∈ b.texts, OneLine s) → Uniform fun i => b.print i
  | .block block, h => block.uniform h
  | .arrow statement, h => by
    simp only [CaseBody.print]
    exact .after _ (statement.uniform h)

end

end Trees

/-- The lines of a program have their margins in front, the first one too. -/
theorem Program.print_indented (p : Program) (h : ∀ s ∈ p.texts, OneLine s) (n : Nat) :
    p.print n = (if p.statements.isEmpty then "" else margin n) ++ indented n (p.print 0) := by
  have heach := Statement.uniform_each p.statements h
  by_cases hnil : p.statements = []
  · simp only [Program.print, hnil, Statement.printEach]
    rfl
  · have hne : Statement.printEach 0 p.statements ≠ [] := by
      obtain ⟨s, ss, hs⟩ := List.exists_cons_of_ne_nil hnil
      simp only [hs, Statement.printEach, ne_eq, reduceCtorEq, not_false_eq_true]
    rw [if_neg (by simpa using hnil)]
    have hlines := heach.separateLines hne n
    rw [Nat.zero_add] at hlines
    exact hlines

namespace Written

theorem uniform (w : Written) (hw : ∀ p, w ≠ .program p) (h : ∀ s ∈ w.texts, OneLine s) :
    Uniform fun i => w.print i := by
  cases w with
  | program p => exact absurd rfl (hw p)
  | block b => exact b.uniform h
  | statement s => exact s.uniform h
  | useDecl d => exact d.uniform h
  | importDecl d => exact d.uniform h
  | varDecl d => exact d.uniform h
  | fnDecl d => exact d.uniform h
  | param p => exact p.uniform h
  | nodeDecl d => exact d.uniform h
  | property p => exact p.uniform h
  | ifStmt s => exact s.uniform h
  | forStmt s => exact s.uniform h
  | caseBody b => exact b.uniform h
  | whenStmt s => exact s.uniform h
  | typeDecl d => exact d.uniform h
  | enumDecl d => exact d.uniform h
  | expr e => exact e.uniform h
  | pairKey k => exact k.uniform h
  | literal l => exact l.uniform h
  | stringLiteral l => exact l.uniform h
  | name n => exact n.uniform h
  | typeRef t => exact t.uniform h

/-- Indentation is uniform: what is written at level `n` is what is written at the outermost level
with the blanks of `n` levels after each line feed, and in front of a program with statements. -/
theorem print_eq_indented (w : Written) (h : ∀ s ∈ w.texts, OneLine s) (n : Nat) :
    w.print n = w.front n ++ indented n (w.print 0) := by
  by_cases hw : ∃ p, w = .program p
  · obtain ⟨p, rfl⟩ := hw
    exact p.print_indented h n
  · have huniform := w.uniform (not_exists.1 hw) h 0 n
    have hfront : w.front n = "" := by
      cases w <;> first | rfl | exact absurd ⟨_, rfl⟩ hw
    rw [Nat.zero_add] at huniform
    rw [hfront, String.empty_append]
    exact huniform

/-- A block in a hole inside a block, once at the outermost level and once a level deeper. -/
theorem print_eq_indented_hole :
    let break_ : Statement := ⟨.breakStmt, default⟩
    let call : Expr := ⟨.call ⟨.name ⟨false, [⟨"f", default⟩], default⟩, default⟩ []
      (some ⟨[break_], default⟩), default⟩
    let text : Expr := ⟨.literal (.string ⟨.formattedTick, [.text "a", .exprHole call], default⟩),
      default⟩
    let w : Written := .program ⟨[⟨.uiBlock ⟨[⟨.expr text, default⟩], default⟩, default⟩], default⟩
    (∀ s ∈ w.texts, OneLine s) ∧ w.print 0 = "ui \x7b\n  f`a$\x7bf() \x7b\n    break\n  \x7d\x7d`\n\x7d" ∧
      w.print 1 = margin 1 ++ indented 1 (w.print 0) := by
  intro break_ call text w
  have h : ∀ s ∈ w.texts, OneLine s := by decide
  exact ⟨h, rfl, print_eq_indented w h 1⟩

end Written

end Script
