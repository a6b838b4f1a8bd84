import Script.Proofs.Printed.Spells

/-!
The written form of a tree is the text of its chunks, and these are set: between any two words that
would run together stands a blank.
-/
namespace Script

open Chunk

variable {a b : List Chunk} {x y : String}

theorem Ident.prints (i : Ident) : Node (fun gap => [i.chunk gap]) i.text :=
  Node.word (w := ⟨.ident, i.text⟩) rfl

/-- The segments of a name after its first stand right after a word. -/
theorem Ident.spells_more (is : List Ident) :
    Spells (some .ident) (is.flatMap fun j => [symbol [] .dot, j.chunk []])
      (String.join (is.map fun j => "." ++ j.text)) := by
  induction is with
  | nil => exact ⟨rfl, rfl⟩
  | cons i is ih =>
    refine ⟨?_, ?_⟩
    · rw [List.flatMap_cons, spell_append, String.ofList_append, ih.text, List.map_cons,
        String.join_cons]
      rw [spell_symbol]
      simp [spell, Ident.chunk]
      rfl
    · simp only [List.flatMap_cons, List.cons_append, List.nil_append]
      have hpoint : TokenKind.touches .ident .dot = true ∧ TokenKind.touches .dot .ident = true := by
        decide
      simpa [isSet, symbol, Ident.chunk, Word.symbol, hpoint] using ih.set

theorem Layout.intercalate_cons (s t : String) (l : List String) :
    s.intercalate (t :: l) = t ++ String.join (l.map (s ++ ·)) := by
  induction l generalizing t with
  | nil => simp
  | cons u l ih =>
    rw [String.intercalate_cons_cons, ih, List.map_cons, String.join_cons]
    simp [String.append_assoc]

theorem Ident.spells_path (is : List Ident) {before : Option TokenKind} {gap : List Char}
    (hset : isSet before [⟨gap, ⟨.ident, ""⟩⟩] = true) :
    Spells before (Ident.chunksPath gap is)
      (String.ofList gap ++ ".".intercalate (is.map Ident.text)) := by
  cases is with
  | nil => exact ⟨by simp [Ident.chunksPath, spell], hset⟩
  | cons i is =>
    have hmore := Ident.spells_more is
    refine ⟨?_, ?_⟩
    · rw [Ident.chunksPath, spell, String.ofList_append, String.ofList_append, hmore.text,
        List.map_cons, Layout.intercalate_cons, List.map_map, Ident.chunk, String.ofList_toList]
      rfl
    · rw [isSet, isSet, Bool.and_true] at hset
      rw [Ident.chunksPath, Ident.chunk, isSet, hset, Bool.true_and]
      exact hmore.set

theorem Name.prints (n : Name) : Node (fun gap => n.chunks gap) n.path := by
  intro gap before hgap hbefore
  unfold Name.chunks Name.path
  split
  · have hpath : Spells (some .dot) (Ident.chunksPath [] n.segments) _ :=
      Ident.spells_path n.segments rfl
    have hdot := (Node.word (w := .symbol .dot) rfl gap before hgap hbefore).set
    simp only [isSet, Bool.and_true] at hdot
    refine ⟨?_, by simp only [isSet, symbol, hdot, Bool.true_and]; exact hpath.set⟩
    rw [spell_symbol, hpath.text]
    rfl
  · have hword := (Node.word (w := ⟨.ident, ""⟩) rfl gap before hgap hbefore).set
    exact (Ident.spells_path n.segments hword).cast (by simp)

theorem TypeRef.prints (t : TypeRef) : Node (fun gap => t.chunks gap) t.path := by
  obtain ⟨kind, span⟩ := t
  cases kind with
  | primitive type => exact Node.word (w := ⟨.ident, type.word⟩) rfl
  | named name => exact name.prints

theorem TypeRef.prints_annotation (o : Option TypeRef) :
    Tail (TypeRef.chunksAnnotation o) (Layout.annotation o) := by
  cases o with
  | none => exact .nil
  | some t => exact t.prints.spaced

theorem Layout.commaSeparated_cons (t : String) (l : List String) :
    Layout.commaSeparated (t :: l) = t ++ String.join (l.map (", " ++ ·)) :=
  Layout.intercalate_cons ", " t l

/-- Items in a list, the first right after its bracket. -/
theorem prints_commaSeparated {α : Type} {item : List Char → α → List Chunk} {print : α → String}
    (hitem : ∀ a, Node (fun gap => item gap a) (print a)) (as : List α) :
    Inner (Chunk.commaSeparated item as) (Layout.commaSeparated (as.map print)) := by
  have hmore : ∀ as : List α, Tail (as.flatMap fun b => symbol [] .comma :: item [' '] b)
      (String.join ((as.map print).map (", " ++ ·))) := by
    intro as
    induction as with
    | nil => exact .nil
    | cons a as ih =>
      refine (Tail.append (Tail.symbol rfl (hitem a).spaced) ih).cast ?_
      simp [String.append_assoc, Word.symbol, TokenKind.symbolText?]
      rfl
  cases as with
  | nil => exact Tail.nil.inner
  | cons a as =>
    rw [Chunk.commaSeparated, List.map_cons, Layout.commaSeparated_cons]
    exact (hitem a).inner.append (hmore as)

section Trees

theorem UnaryOp.text_kind (op : UnaryOp) : (Word.symbol op.kind).text = op.symbol := by
  cases op <;> rfl

theorem BinaryOp.text_kind (op : BinaryOp) : (Word.symbol op.kind).text = op.symbol := by
  cases op <;> rfl

theorem CompareOp.text_kind (op : CompareOp) : (Word.symbol op.kind).text = op.symbol := by
  cases op <;> rfl

theorem BindingKind.text_keyword (b : BindingKind) : b.keyword.text = b.word := by
  cases b <;> rfl

theorem StringLiteral.prints (l : StringLiteral) (indent : Nat) :
    Node (fun gap => [l.chunk StringLiteral.print gap indent]) (l.print indent) := by
  have hleads : (Lexeme.stringKind l.form).leads = true := by
    cases l.form <;> rfl
  have hnode := Node.word (w := ⟨Lexeme.stringKind l.form, l.print indent⟩) hleads
  simp only [StringLiteral.chunk]
  exact hnode

theorem Literal.prints (l : Literal) (indent : Nat) :
    Node (fun gap => [l.chunk StringLiteral.print gap indent]) (l.print indent) := by
  match l with
  | .number kind raw =>
    simp only [Literal.chunk, Literal.print]
    exact Node.word (w := ⟨.number kind, raw⟩) rfl
  | .string l =>
    simp only [Literal.chunk, Literal.print]
    exact l.prints indent
  | .bool true =>
    simp only [Literal.chunk, Literal.print]
    exact .keyword .trueWord
  | .bool false =>
    simp only [Literal.chunk, Literal.print]
    exact .keyword .falseWord
  | .null =>
    simp only [Literal.chunk, Literal.print]
    exact .keyword .nullWord
  | .nil =>
    simp only [Literal.chunk, Literal.print]
    exact .keyword .nilWord

theorem PairKey.prints (key : PairKey) (indent : Nat) :
    Node (fun gap => key.chunks StringLiteral.print gap indent) (key.print indent) := by
  cases key with
  | name name =>
    simp only [PairKey.chunks, PairKey.print]
    exact name.prints
  | string l =>
    simp only [PairKey.chunks, PairKey.print]
    exact l.prints indent

theorem UseDecl.prints (d : UseDecl) : Node (fun gap => d.chunks gap) d.print := by
  have hmore : ∀ ns : List Name, Tail (ns.flatMap fun m => symbol [] .comma :: m.chunks [' '])
      (String.join (ns.map fun m => ", " ++ m.path)) := by
    intro ns
    induction ns with
    | nil => exact .nil
    | cons n ns ih =>
      exact (Tail.append (.symbol rfl n.prints.spaced) ih).cast
        (String.ext (by simp [Word.symbol, TokenKind.symbolText?]))
  have hsubs : Tail (UseDecl.chunksSubs d.subs) (if d.subs.isEmpty then ""
      else ": " ++ Layout.commaSeparated (d.subs.map Name.path)) := by
    cases d.subs with
    | nil => exact .nil
    | cons n ns =>
      refine (Tail.append (.symbol rfl n.prints.spaced) (hmore ns)).cast (String.ext ?_)
      simp [Layout.commaSeparated_cons, Word.symbol, TokenKind.symbolText?, Function.comp_def]
  exact ((Node.keyword .useWord).append (d.path.prints.spaced.append hsubs)).cast
    (String.ext (by simp [UseDecl.print, Keyword.text]))

theorem FieldDecl.prints (d : FieldDecl) :
    Node (fun gap => d.chunks gap) (d.name.text ++ ": " ++ d.type.path) :=
  (d.name.prints.append (.symbol rfl d.type.prints.spaced)).cast
    (String.ext (by simp [Word.symbol, TokenKind.symbolText?]))

theorem Param.prints (p : Param) : Node (fun gap => p.chunks gap) p.print :=
  p.name.prints.append (TypeRef.prints_annotation p.type)

theorem Property.prints (p : Property) : Node (fun gap => p.chunks gap) p.print :=
  p.name.prints.append (TypeRef.prints_annotation p.type)

/-- Items on lines of their own. -/
theorem prints_lines {α : Type} {item : List Char → α → List Chunk} {print : α → String}
    (indent : Nat) (hitem : ∀ a, Node (fun gap => item gap a) (print a)) (as : List α) :
    TurnedTail "\n" (as.flatMap (item (lineGap indent)))
      (String.join (as.map fun a => Layout.margin indent ++ print a ++ "\n")) := by
  induction as with
  | nil => exact .nil
  | cons a as ih =>
    have hline := (((hitem a).line indent).cast (String.append_assoc ..)).turned
    exact (hline.append ih).cast (by rw [List.map_cons, String.join_cons])

/-- Lines and the closing brace after them. -/
theorem Chunk.TurnedTail.closed (indent : Nat) (ha : TurnedTail "\n" a x) :
    Tail (a ++ [symbol (lineGap indent) .closeBrace])
      ("\n" ++ (x ++ (Layout.margin indent ++ "\x7d"))) :=
  ha.tail ((Tail.lineSign indent .closeBrace .nil).cast
    (String.ext (by simp [Word.symbol, TokenKind.symbolText?])))

theorem TypeDecl.prints (d : TypeDecl) (indent : Nat) :
    Node (fun gap => d.chunks gap indent) (d.print indent) := by
  have hlines := (prints_lines (indent + 1) FieldDecl.prints d.fields).closed indent
  have hbrace := Node.opener (k := .openBrace) rfl rfl hlines.inner
  refine ((Node.keyword .typeWord).append (d.name.prints.spaced.append hbrace.spaced)).cast ?_
  refine String.ext ?_
  simp [TypeDecl.print, Keyword.text, Word.symbol, TokenKind.symbolText?, String.append_assoc]

/-- Statements in braces, on lines of their own if there are any. -/
theorem Statement.prints_braced {ss : List Statement} {indent : Nat}
    (hlines : TurnedTail "\n" (Statement.chunksLines StringLiteral.print (indent + 1) ss)
      (String.join ((Statement.printEach (indent + 1) ss).map
        fun line => Layout.margin (indent + 1) ++ line ++ "\n"))) :
    Node (fun gap => symbol gap .openBrace ::
        Statement.chunksLines StringLiteral.print (indent + 1) ss ++
        [symbol (if ss.isEmpty then [] else lineGap indent) .closeBrace])
      (Layout.bracedLines indent (Statement.printEach (indent + 1) ss)) := by
  cases ss with
  | nil =>
    simp only [Statement.chunksLines, Statement.printEach]
    exact (Node.opener (k := .openBrace) rfl rfl Tail.nil.inner).append (.symbol rfl .nil)
  | cons s ss =>
    refine (Node.opener (k := .openBrace) rfl rfl (hlines.closed indent).inner).cast (String.ext ?_)
    simp [Layout.bracedLines, Statement.printEach, Word.symbol, TokenKind.symbolText?]

mutual

theorem Expr.prints (indent : Nat) :
    ∀ e : Expr, Node (fun gap => e.chunks StringLiteral.print gap indent) (e.print indent)
  | ⟨kind, _⟩ => by
    simp only [Expr.chunks, Expr.print]
    exact kind.prints indent

theorem ExprKind.prints (indent : Nat) :
    ∀ k : ExprKind, Node (fun gap => k.chunks StringLiteral.print gap indent) (k.print indent)
  | .name name => by
    simp only [ExprKind.chunks, ExprKind.print]
    exact name.prints
  | .literal literal => by
    simp only [ExprKind.chunks, ExprKind.print]
    exact literal.prints indent
  | .unary op operand => by
    simp only [ExprKind.chunks, ExprKind.print]
    have hsign : op.kind.leads = true ∧ op.kind.bears = true := by cases op <;> decide
    rw [← op.text_kind]
    exact .opener hsign.1 hsign.2 (operand.prints indent).inner
  | .binary op assoc left right => by
    simp only [ExprKind.chunks, ExprKind.print]
    have htail := Tail.sign op.kind (right.prints indent).spaced
    exact ((left.prints indent).append htail).cast (by simp [op.text_kind, String.append_assoc])
  | .comparison op assoc left right => by
    simp only [ExprKind.chunks, ExprKind.print]
    have htail := Tail.sign op.kind (right.prints indent).spaced
    exact ((left.prints indent).append htail).cast (by simp [op.text_kind, String.append_assoc])
  | .call callee args body => by
    simp only [ExprKind.chunks, ExprKind.print]
    have hargs := Tail.opener (k := .openParen) rfl rfl (Expr.prints_items indent args)
    have hcall := ((callee.prints indent).append hargs).append (.symbol (k := .closeParen) rfl .nil)
    exact (hcall.append (Block.prints_trailing indent body)).cast
      (String.ext (by simp [Word.symbol, TokenKind.symbolText?]))
  | .group inner => by
    simp only [ExprKind.chunks, ExprKind.print]
    have hopen := Node.opener (k := .openParen) rfl rfl (inner.prints indent).inner
    exact (hopen.append (.symbol (k := .closeParen) rfl .nil)).cast
      (String.ext (by simp [Word.symbol, TokenKind.symbolText?]))
  | .pair key value => by
    simp only [ExprKind.chunks, ExprKind.print]
    have htail := Tail.symbol (k := .colon) rfl (value.prints indent).spaced
    exact ((key.prints indent).append htail).cast
      (String.ext (by simp [Word.symbol, TokenKind.symbolText?]))
  | .object entries => by
    simp only [ExprKind.chunks, ExprKind.print]
    have hopen := Node.opener (k := .openBrace) rfl rfl (Statement.prints_items indent entries)
    exact (hopen.append (.symbol (k := .closeBrace) rfl .nil)).cast
      (String.ext (by simp [Word.symbol, TokenKind.symbolText?]))
  | .array items => by
    simp only [ExprKind.chunks, ExprKind.print]
    have hopen := Node.opener (k := .openBracket) rfl rfl (Expr.prints_items indent items)
    exact (hopen.append (.symbol (k := .closeBracket) rfl .nil)).cast
      (String.ext (by simp [Word.symbol, TokenKind.symbolText?]))
  | .transition source target => by
    simp only [ExprKind.chunks, ExprKind.print]
    exact (source.prints.append (.sign .arrow target.prints.spaced)).cast
      (String.ext (by simp [Word.symbol, TokenKind.symbolText?]))
  | .ifExpr stmt => by
    simp only [ExprKind.chunks, ExprKind.print]
    exact stmt.prints indent
  | .whenExpr stmt => by
    simp only [ExprKind.chunks, ExprKind.print]
    exact stmt.prints indent

theorem Expr.prints_items (indent : Nat) :
    ∀ es : List Expr, Inner (Expr.chunksItems StringLiteral.print indent es)
      (Layout.commaSeparated (Expr.printEach indent es))
  | [] => by
    simp only [Expr.chunksItems, Expr.printEach]
    exact Tail.nil.inner
  | e :: es => by
    simp only [Expr.chunksItems, Expr.printEach, Layout.commaSeparated_cons]
    exact (e.prints indent).inner.append (Expr.prints_more indent es)

theorem Expr.prints_more (indent : Nat) :
    ∀ es : List Expr, Tail (Expr.chunksMore StringLiteral.print indent es)
      (String.join ((Expr.printEach indent es).map (", " ++ ·)))
  | [] => by
    simp only [Expr.chunksMore, Expr.printEach]
    exact .nil
  | e :: es => by
    simp only [Expr.chunksMore, Expr.printEach]
    have hitem := Tail.symbol (k := .comma) rfl (e.prints indent).spaced
    exact (hitem.append (Expr.prints_more indent es)).cast
      (String.ext (by simp [Word.symbol, TokenKind.symbolText?]))

theorem Block.prints_trailing (indent : Nat) :
    ∀ o : Option Block, Tail (Block.chunksTrailing StringLiteral.print indent o)
      (Block.printTrailing indent o)
  | none => by
    simp only [Block.chunksTrailing, Block.printTrailing]
    exact .nil
  | some block => by
    simp only [Block.chunksTrailing, Block.printTrailing]
    exact (block.prints indent).spaced

theorem Block.prints (indent : Nat) :
    ∀ b : Block, Node (fun gap => b.chunks StringLiteral.print gap indent) (b.print indent)
  | ⟨statements, _⟩ => by
    simp only [Block.chunks, Block.print]
    exact Statement.prints_braced (Statement.prints_lines (indent + 1) statements)

theorem Statement.prints (indent : Nat) :
    ∀ s : Statement, Node (fun gap => s.chunks StringLiteral.print gap indent) (s.print indent)
  | ⟨kind, _⟩ => by
    simp only [Statement.chunks, Statement.print]
    exact kind.prints indent

theorem Statement.prints_lines (indent : Nat) :
    ∀ ss : List Statement, TurnedTail "\n" (Statement.chunksLines StringLiteral.print indent ss)
      (String.join ((Statement.printEach indent ss).map
        fun line => Layout.margin indent ++ line ++ "\n"))
  | [] => by
    simp only [Statement.chunksLines, Statement.printEach]
    exact .nil
  | s :: ss => by
    simp only [Statement.chunksLines, Statement.printEach]
    have hline := (((s.prints indent).line indent).cast (String.append_assoc ..)).turned
    exact (hline.append (Statement.prints_lines indent ss)).cast
      (by rw [List.map_cons, String.join_cons])

theorem Statement.prints_items (indent : Nat) :
    ∀ ss : List Statement, Inner (Statement.chunksItems StringLiteral.print indent ss)
      (Layout.commaSeparated (Statement.printEach indent ss))
  | [] => by
    simp only [Statement.chunksItems, Statement.printEach]
    exact Tail.nil.inner
  | s :: ss => by
    simp only [Statement.chunksItems, Statement.printEach, Layout.commaSeparated_cons]
    exact (s.prints indent).inner.append (Statement.prints_more indent ss)

theorem Statement.prints_more (indent : Nat) :
    ∀ ss : List Statement, Tail (Statement.chunksMore StringLiteral.print indent ss)
      (String.join ((Statement.printEach indent ss).map (", " ++ ·)))
  | [] => by
    simp only [Statement.chunksMore, Statement.printEach]
    exact .nil
  | s :: ss => by
    simp only [Statement.chunksMore, Statement.printEach]
    have hitem := Tail.symbol (k := .comma) rfl (s.prints indent).spaced
    exact (hitem.append (Statement.prints_more indent ss)).cast
      (String.ext (by simp [Word.symbol, TokenKind.symbolText?]))

theorem StatementKind.prints (indent : Nat) :
    ∀ k : StatementKind, Node (fun gap => k.chunks StringLiteral.print gap indent) (k.print indent)
  | .modDecl name body => by
    simp only [StatementKind.chunks, StatementKind.print]
    have hname := (Node.keyword .modWord).append name.prints.spaced
    exact (hname.append (body.prints indent).spaced).cast (String.ext (by simp [Keyword.text]))
  | .useDecl decl => by
    simp only [StatementKind.chunks, StatementKind.print]
    exact decl.prints
  | .importDecl decl => by
    simp only [StatementKind.chunks, StatementKind.print]
    exact decl.prints indent
  | .varDecl decl => by
    simp only [StatementKind.chunks, StatementKind.print]
    exact decl.prints indent
  | .fnDecl decl => by
    simp only [StatementKind.chunks, StatementKind.print]
    exact decl.prints indent
  | .nodeDecl decl => by
    simp only [StatementKind.chunks, StatementKind.print]
    exact decl.prints indent
  | .assign target value => by
    simp only [StatementKind.chunks, StatementKind.print]
    exact (target.prints.append (.sign .assign (value.prints indent).spaced)).cast
      (String.ext (by simp [Word.symbol, TokenKind.symbolText?]))
  | .ifStmt stmt => by
    simp only [StatementKind.chunks, StatementKind.print]
    exact stmt.prints indent
  | .forStmt stmt => by
    simp only [StatementKind.chunks, StatementKind.print]
    exact stmt.prints indent
  | .whenStmt stmt => by
    simp only [StatementKind.chunks, StatementKind.print]
    exact stmt.prints indent
  | .uiBlock body => by
    simp only [StatementKind.chunks, StatementKind.print]
    exact ((Node.keyword .uiWord).append (body.prints indent).spaced).cast
      (String.ext (by simp [Keyword.text]))
  | .styleBlock body => by
    simp only [StatementKind.chunks, StatementKind.print]
    exact ((Node.keyword .styleWord).append (body.prints indent).spaced).cast
      (String.ext (by simp [Keyword.text]))
  | .typeDecl decl => by
    simp only [StatementKind.chunks, StatementKind.print]
    exact decl.prints indent
  | .enumDecl decl => by
    simp only [StatementKind.chunks, StatementKind.print]
    exact decl.prints indent
  | .breakStmt => by
    simp only [StatementKind.chunks, StatementKind.print]
    exact .keyword .breakWord
  | .expr expr => by
    simp only [StatementKind.chunks, StatementKind.print]
    exact expr.prints indent

theorem ImportDecl.prints (indent : Nat) :
    ∀ d : ImportDecl, Node (fun gap => d.chunks StringLiteral.print gap indent) (d.print indent)
  | ⟨path, none, _⟩ => by
    simp only [ImportDecl.chunks, ImportDecl.print, ImportDecl.printArgs]
    exact ((Node.keyword .importWord).append path.prints.spaced).cast
      (String.ext (by simp [Keyword.text]))
  | ⟨path, some args, _⟩ => by
    simp only [ImportDecl.chunks, ImportDecl.print, ImportDecl.printArgs]
    have hargs := Tail.opener (k := .openParen) rfl rfl (Expr.prints_items indent args)
    have hpath := ((Node.keyword .importWord).append path.prints.spaced).append hargs
    exact (hpath.append (.symbol (k := .closeParen) rfl .nil)).cast
      (String.ext (by simp [Keyword.text, Word.symbol, TokenKind.symbolText?]))

theorem VarDecl.prints (indent : Nat) :
    ∀ d : VarDecl, Node (fun gap => d.chunks StringLiteral.print gap indent) (d.print indent)
  | ⟨binding, name, type, value, _⟩ => by
    simp only [VarDecl.chunks, VarDecl.print]
    have hname := (Node.keyword binding.keyword).append name.prints.spaced
    have htype := hname.append (TypeRef.prints_annotation type)
    exact (htype.append (.sign .assign (value.prints indent).spaced)).cast
      (String.ext (by simp [binding.text_keyword, Word.symbol, TokenKind.symbolText?]))

theorem VarDecl.prints_init (indent : Nat) :
    ∀ ds : List VarDecl, TurnedTail " " (VarDecl.chunksInit StringLiteral.print indent ds)
      (VarDecl.printInit indent ds)
  | [] => by
    simp only [VarDecl.chunksInit, VarDecl.printInit]
    exact .nil
  | d :: ds => by
    simp only [VarDecl.chunksInit, VarDecl.printInit]
    have hdecl := (d.prints indent).spaced.append (.symbol (k := .semicolon) rfl .nil)
    have hturned := (hdecl.cast (String.append_assoc ..)).turned.append (VarDecl.prints_init indent ds)
    rw [List.append_assoc] at hturned
    exact hturned.cast (String.ext (by simp [Word.symbol, TokenKind.symbolText?]))

theorem FnDecl.prints (indent : Nat) :
    ∀ d : FnDecl, Node (fun gap => d.chunks StringLiteral.print gap indent) (d.print indent)
  | ⟨name, params, result, body, _⟩ => by
    simp only [FnDecl.chunks, FnDecl.print]
    have hparams := Tail.opener (k := .openParen) rfl rfl (prints_commaSeparated Param.prints params)
    have hname := ((Node.keyword .fnWord).append name.prints.spaced).append hparams
    have hhead := (hname.append (.symbol (k := .closeParen) rfl .nil)).append
      (TypeRef.prints_annotation result)
    exact (hhead.append (body.prints indent)).cast
      (String.ext (by simp [Keyword.text, Word.symbol, TokenKind.symbolText?]))

theorem FnBody.prints (indent : Nat) :
    ∀ b : FnBody, Tail (b.chunks StringLiteral.print indent) (b.print indent)
  | .block block => by
    simp only [FnBody.chunks, FnBody.print]
    exact (block.prints indent).spaced
  | .expr expr => by
    simp only [FnBody.chunks, FnBody.print]
    exact (Tail.sign .assign (expr.prints indent).spaced).cast
      (String.ext (by simp [Word.symbol, TokenKind.symbolText?]))

theorem NodeDecl.prints (indent : Nat) :
    ∀ d : NodeDecl, Node (fun gap => d.chunks StringLiteral.print gap indent) (d.print indent)
  | ⟨name, props, none, _⟩ => by
    simp only [NodeDecl.chunks, NodeDecl.print, NodeDecl.printBody]
    have hprops := Tail.opener (k := .openParen) rfl rfl (prints_commaSeparated Property.prints props)
    have hname := ((Node.keyword .nodeWord).append name.prints.spaced).append hprops
    exact (hname.append (.symbol (k := .closeParen) rfl .nil)).cast
      (String.ext (by simp [Keyword.text, Word.symbol, TokenKind.symbolText?]))
  | ⟨name, props, some entries, _⟩ => by
    simp only [NodeDecl.chunks, NodeDecl.print, NodeDecl.printBody]
    have hprops := Tail.opener (k := .openParen) rfl rfl (prints_commaSeparated Property.prints props)
    have hname := ((Node.keyword .nodeWord).append name.prints.spaced).append hprops
    have hbody := Statement.prints_braced (Statement.prints_lines (indent + 1) entries)
    have hdecl := (hname.append (.symbol (k := .closeParen) rfl .nil)).append hbody.spaced
    simp only [← List.append_assoc] at hdecl
    exact hdecl.cast (String.ext (by simp [Keyword.text, Word.symbol, TokenKind.symbolText?]))

theorem EnumDecl.prints (indent : Nat) :
    ∀ d : EnumDecl, Node (fun gap => d.chunks StringLiteral.print gap indent) (d.print indent)
  | ⟨name, members, _⟩ => by
    simp only [EnumDecl.chunks, EnumDecl.print]
    have hlines := (EnumMember.prints_lines (indent + 1) members).closed indent
    have hbrace := Node.opener (k := .openBrace) rfl rfl hlines.inner
    refine ((Node.keyword .enumWord).append (name.prints.spaced.append hbrace.spaced)).cast ?_
    exact String.ext (by simp [Keyword.text, Word.symbol, TokenKind.symbolText?])

theorem EnumMember.prints_lines (indent : Nat) :
    ∀ ms : List EnumMember, TurnedTail "\n"
      (EnumMember.chunksLines StringLiteral.print indent ms) (EnumMember.printLines indent ms)
  | [] => by
    simp only [EnumMember.chunksLines, EnumMember.printLines]
    exact .nil
  | m :: ms => by
    simp only [EnumMember.chunksLines, EnumMember.printLines]
    have hline := (((m.prints indent).line indent).cast (String.append_assoc ..)).turned
    exact hline.append (EnumMember.prints_lines indent ms)

theorem EnumMember.prints (indent : Nat) :
    ∀ m : EnumMember, Node (fun gap => m.chunks StringLiteral.print gap indent) (m.print indent)
  | ⟨name, none, _⟩ => by
    simp only [EnumMember.chunks, EnumMember.print]
    exact name.prints
  | ⟨name, some value, _⟩ => by
    simp only [EnumMember.chunks, EnumMember.print]
    exact (name.prints.append (.sign .assign (value.prints indent).spaced)).cast
      (String.ext (by simp [Word.symbol, TokenKind.symbolText?]))

theorem IfStmt.prints (indent : Nat) :
    ∀ s : IfStmt, Node (fun gap => s.chunks StringLiteral.print gap indent) (s.print indent)
  | ⟨condition, body, elseIfs, elseBody, _⟩ => by
    simp only [IfStmt.chunks, IfStmt.print]
    have hcondition := (Node.keyword .ifWord).append (condition.prints indent).spaced
    have hbody := hcondition.append (body.prints indent).spaced
    have helse := (hbody.append (ElseIf.prints_each indent elseIfs)).append
      (Block.prints_else indent elseBody)
    exact helse.cast (String.ext (by simp [Keyword.text]))

theorem ElseIf.prints_each (indent : Nat) :
    ∀ es : List ElseIf, Tail (ElseIf.chunksEach StringLiteral.print indent es)
      (ElseIf.printEach indent es)
  | [] => by
    simp only [ElseIf.chunksEach, ElseIf.printEach]
    exact .nil
  | e :: es => by
    simp only [ElseIf.chunksEach, ElseIf.printEach]
    exact (e.prints indent).append (ElseIf.prints_each indent es)

theorem ElseIf.prints (indent : Nat) :
    ∀ e : ElseIf, Tail (e.chunks StringLiteral.print indent) (e.print indent)
  | ⟨condition, body, _⟩ => by
    simp only [ElseIf.chunks, ElseIf.print]
    have hcondition := Tail.keyword .elseWord (.keyword .ifWord (condition.prints indent).spaced)
    exact (hcondition.append (body.prints indent).spaced).cast (String.ext (by simp [Keyword.text]))

theorem Block.prints_else (indent : Nat) :
    ∀ o : Option Block, Tail (Block.chunksElse StringLiteral.print indent o)
      (Block.printElse indent o)
  | none => by
    simp only [Block.chunksElse, Block.printElse]
    exact .nil
  | some block => by
    simp only [Block.chunksElse, Block.printElse]
    exact (Tail.keyword .elseWord (block.prints indent).spaced).cast
      (String.ext (by simp [Keyword.text]))

theorem ForStmt.prints (indent : Nat) :
    ∀ s : ForStmt, Node (fun gap => s.chunks StringLiteral.print gap indent) (s.print indent)
  | ⟨head, body, _⟩ => by
    simp only [ForStmt.chunks, ForStmt.print]
    have htail := (head.prints indent).tail (body.prints indent).spaced
    have hstmt := (Node.keyword .forWord).append htail
    exact hstmt.cast (String.ext (by simp [Keyword.text]))

theorem ForHead.prints (indent : Nat) :
    ∀ h : ForHead, TurnedTail " " (h.chunks StringLiteral.print indent) (h.print indent)
  | .counted init none => by
    simp only [ForHead.chunks, ForHead.print]
    exact VarDecl.prints_init indent init
  | .counted init (some condition) => by
    simp only [ForHead.chunks, ForHead.print]
    have hcondition := (condition.prints indent).spaced.turned
    exact ((VarDecl.prints_init indent init).append hcondition).cast (by rw [String.append_assoc])
  | .iterate none name iterable => by
    simp only [ForHead.chunks, ForHead.print]
    have htail := name.prints.spaced.append (.keyword .inWord (iterable.prints indent).spaced)
    exact (htail.cast (String.append_assoc ..)).turned.cast
      (String.ext (by simp [Keyword.text]))
  | .iterate (some index) name iterable => by
    simp only [ForHead.chunks, ForHead.print]
    have hname := name.prints.spaced.append (.keyword .inWord (iterable.prints indent).spaced)
    have htail := index.prints.spaced.append (.symbol (k := .comma) rfl hname)
    exact (htail.cast (String.append_assoc ..)).turned.cast
      (String.ext (by simp [Keyword.text, Word.symbol, TokenKind.symbolText?]))

theorem WhenStmt.prints (indent : Nat) :
    ∀ s : WhenStmt, Node (fun gap => s.chunks StringLiteral.print gap indent) (s.print indent)
  | ⟨init, subject, cases, elseBody, _⟩ => by
    simp only [WhenStmt.chunks, WhenStmt.print]
    have hlines := ((WhenCase.prints_lines (indent + 1) cases).append
      (CaseBody.prints_else (indent + 1) elseBody)).closed indent
    have hbrace := Node.opener (k := .openBrace) rfl rfl hlines.inner
    have hhead := (VarDecl.prints_init indent init).tail (subject.prints indent).spaced
    have hstmt := ((Node.keyword .whenWord).append hhead).append hbrace.spaced
    simp only [List.append_assoc, List.cons_append, List.nil_append] at hstmt ⊢
    exact hstmt.cast (String.ext (by simp [Keyword.text, Word.symbol, TokenKind.symbolText?]))

theorem WhenCase.prints_lines (indent : Nat) :
    ∀ cs : List WhenCase, TurnedTail "\n" (WhenCase.chunksLines StringLiteral.print indent cs)
      (WhenCase.printLines indent cs)
  | [] => by
    simp only [WhenCase.chunksLines, WhenCase.printLines]
    exact .nil
  | c :: cs => by
    simp only [WhenCase.chunksLines, WhenCase.printLines]
    have hline := (((c.prints indent).line indent).cast (String.append_assoc ..)).turned
    exact hline.append (WhenCase.prints_lines indent cs)

theorem WhenCase.prints (indent : Nat) :
    ∀ c : WhenCase, Node (fun gap => c.chunks StringLiteral.print gap indent) (c.print indent)
  | ⟨pattern, body, _⟩ => by
    simp only [WhenCase.chunks, WhenCase.print]
    have hpattern := (Node.keyword .isWord).append (pattern.prints indent).spaced
    exact (hpattern.append (body.prints indent)).cast (String.ext (by simp [Keyword.text]))

theorem CaseBody.prints_else (indent : Nat) :
    ∀ o : Option CaseBody, TurnedTail "\n" (CaseBody.chunksElse StringLiteral.print indent o)
      (CaseBody.printElse indent o)
  | none => by
    simp only [CaseBody.chunksElse, CaseBody.printElse]
    exact .nil
  | some body => by
    simp only [CaseBody.chunksElse, CaseBody.printElse]
    have helse := Tail.lineKeyword indent .elseWord (body.prints indent)
    refine ((helse.cast ?_).turned (x := Layout.margin indent ++ "else " ++ body.print indent))
    exact String.ext (by simp [Keyword.text])

theorem CaseBody.prints (indent : Nat) :
    ∀ b : CaseBody, Tail (b.chunks StringLiteral.print indent) (" " ++ b.print indent)
  | .block block => by
    simp only [CaseBody.chunks, CaseBody.print]
    exact (block.prints indent).spaced
  | .arrow statement => by
    simp only [CaseBody.chunks, CaseBody.print]
    exact (Tail.sign .arrow (statement.prints indent).spaced).cast
      (String.ext (by simp [Word.symbol, TokenKind.symbolText?]))

end

end Trees

end Script
