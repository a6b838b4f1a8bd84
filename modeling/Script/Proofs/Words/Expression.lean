import Script.Proofs.Words.Names

/-!
The words of expressions.
-/
namespace Script

open Chunk

/-- What is nested inside a construct has the words of its tokens. -/
structure Rules.Yielding (rules : Rules) (source : String) : Prop where
  expr : ∀ {s min e ts}, rules.expr s min e ts → (∀ t ∈ ts, t.Faithful source) →
    ∀ b gap indent, Yields b ts (Chunk.words (e.chunks (StringLiteral.quoted source) gap indent))
  value : ∀ {s min e ts}, rules.value s min e ts → (∀ t ∈ ts, t.Faithful source) →
    ∀ b gap indent, Yields b ts (Chunk.words (e.chunks (StringLiteral.quoted source) gap indent))
  statement : ∀ {s st ts}, rules.statement s st ts → (∀ t ∈ ts, t.Faithful source) →
    ∀ b gap indent, Yields b ts (Chunk.words (st.chunks (StringLiteral.quoted source) gap indent))

section Layouts

variable {lit : Nat → StringLiteral → String} {indent : Nat} {ws : List Word}

theorem Expr.words_more {es : List Expr} (h : YieldEach (Expr.chunks lit) es ws) :
    Chunk.words (Expr.chunksMore lit indent es) = ws := by
  induction h with
  | nil => rfl
  | cons ha _ ih => rw [Expr.chunksMore, List.cons_append, words_comma, words_append, ha, ih]

theorem Expr.words_items {es : List Expr} (h : YieldEach (Expr.chunks lit) es ws) :
    Chunk.words (Expr.chunksItems lit indent es) = ws := by
  cases h with
  | nil => rfl
  | cons ha has => rw [Expr.chunksItems, words_append, ha, Expr.words_more has]

theorem Statement.words_more {ss : List Statement} (h : YieldEach (Statement.chunks lit) ss ws) :
    Chunk.words (Statement.chunksMore lit indent ss) = ws := by
  induction h with
  | nil => rfl
  | cons ha _ ih => rw [Statement.chunksMore, List.cons_append, words_comma, words_append, ha, ih]

theorem Statement.words_items {ss : List Statement} (h : YieldEach (Statement.chunks lit) ss ws) :
    Chunk.words (Statement.chunksItems lit indent ss) = ws := by
  cases h with
  | nil => rfl
  | cons ha has => rw [Statement.chunksItems, words_append, ha, Statement.words_more has]

theorem Statement.words_lines {ss : List Statement} (h : YieldEach (Statement.chunks lit) ss ws) :
    Chunk.words (Statement.chunksLines lit indent ss) = ws := by
  induction h with
  | nil => rfl
  | cons ha _ ih => rw [Statement.chunksLines, words_append, ha, ih]

end Layouts

/-- The token kind of an operator. -/
def InfixOp.kind : InfixOp → TokenKind
  | binary op => op.kind
  | compare op => op.kind
  | pair => .colon
  | transition => .arrow
  | call => .openParen

theorem Operator.kind_eq {k : TokenKind} {o : Operator} (h : Operator.ofKind? k = some o) :
    k = o.op.kind := by
  cases k <;> cases h <;> rfl

theorem UnaryOp.kind_eq {k : TokenKind} {op : UnaryOp} (h : UnaryOp.ofKind? k = some op) :
    k = op.kind := by
  cases k <;> cases h <;> rfl

/-- A key is written as the expression that it was read as. -/
theorem PairKey.chunks_eq {e : Expr} {key : PairKey} (h : Parser.pairKey? e = some key)
    (lit : Nat → StringLiteral → String) (gap : List Char) (indent : Nat) :
    key.chunks lit gap indent = e.chunks lit gap indent := by
  obtain ⟨kind, span⟩ := e
  unfold Parser.pairKey? at h
  split at h
  · obtain rfl := Option.some.inj h
    rename_i hk
    obtain rfl : kind = _ := hk
    rfl
  · rename_i hk
    obtain rfl : kind = _ := hk
    split at h
    · cases h
    · obtain rfl := Option.some.inj h
      rfl
  · cases h

theorem Literal.chunk_word {word : Keyword} {literal : Literal}
    (h : Parser.literalWord? word = some literal) (lit : Nat → StringLiteral → String)
    (gap : List Char) (indent : Nat) : literal.chunk lit gap indent = keyword gap word := by
  cases word <;> cases h <;> rfl

variable {rules : Rules} {s : Surroundings} {min : Strength} {source : String} {b : Bool}
  {ts us : List Token} {gap : List Char} {indent : Nat}

theorem StringLiteral.Written.word {t : Token} {l : StringLiteral} (h : l.Written rules t)
    (ht : t.kind.isString = true) (hf : t.Faithful source) :
    l.chunk (StringLiteral.quoted source) gap indent = ⟨gap, t.word⟩ := by
  cases h with
  | @mk _ decoded parts hd _ =>
    obtain ⟨form, hform, hkind⟩ :=
      (hf.readable (fun hend => by rw [hend] at ht; cases ht)).string ht
    have hdecoded : decoded.form = form := by
      have hopening : (StringForm.opening? t.text.toList).getD .double = form := by
        rw [show StringForm.opening? t.text.toList = some form from hform, Option.getD_some]
      unfold decode at hd
      dsimp only at hd
      split at hd
      · rw [← Except.ok.inj hd, hopening]
      · cases hd
    have hkind : t.kind = Lexeme.stringKind form := hkind
    rw [StringLiteral.chunk, hdecoded, ← hkind, StringLiteral.quoted, hf.text, Token.word]

theorem Block.Written.yields (hr : rules.Yielding source) {body : Block} (h : body.Written rules ts)
    (hf : ∀ t ∈ ts, t.Faithful source) :
    Yields b ts (Chunk.words (body.chunks (StringLiteral.quoted source) gap indent)) := by
  cases h with
  | mk ht hs =>
    rw [List.forall_mem_cons] at hf
    obtain ⟨ws, heach, hyields⟩ := ListWritten.yields_closed (by decide) (by decide) rfl
      (fun _ _ hst hf => hr.statement hst hf) hs hf.2
    rw [Block.chunks, List.cons_append, words_symbol gap (by decide), words_append,
      Statement.words_lines heach, words_symbol _ (by decide)]
    exact .bracket hf.1 ht rfl rfl (hyields false)

theorem Expr.OperandWritten.yields (hr : rules.Yielding source) {e : Expr}
    (h : e.OperandWritten rules s ts) (hf : ∀ t ∈ ts, t.Faithful source) :
    Yields b ts (Chunk.words (e.chunks (StringLiteral.quoted source) gap indent)) := by
  cases h with
  | @unary op t ts operand ht ho =>
    rw [List.forall_mem_cons] at hf
    rw [Expr.chunks, ExprKind.chunks, words_symbol gap (by cases op <;> decide)]
    have hk := UnaryOp.kind_eq ht
    cases op <;> exact .symbol hf.1 hk rfl (by decide) (hr.expr ho hf.2 true [] indent)
  | word ht hl =>
    rw [Expr.chunks, ExprKind.chunks, Literal.chunk_word hl, words_keyword]
    exact .keyword ht .nil
  | name hn =>
    rw [Expr.chunks, ExprKind.chunks]
    exact hn.name.yields hf
  | @number t kind ht =>
    rw [Expr.chunks, ExprKind.chunks, Literal.chunk, words_word gap rfl, ← ht]
    refine .word ?_ .nil
    rw [ht]
    exact ⟨nofun, nofun, rfl⟩
  | @string t literal ht hl =>
    rw [List.forall_mem_singleton] at hf
    have hplain : t.kind.Plain := by
      cases hk : t.kind <;> simp [hk, TokenKind.isString] at ht <;> decide
    have hsep : t.word.isSeparator = false := by
      simp [Word.isSeparator, Token.word, hplain.1, hplain.2.1]
    rw [Expr.chunks, ExprKind.chunks, Literal.chunk, hl.word ht hf, words_word gap hsep]
    exact .word hplain .nil
  | @group t u ts inner ht hi hu =>
    simp only [List.forall_mem_cons, List.forall_mem_append] at hf
    rw [Expr.chunks, ExprKind.chunks, List.cons_append, words_symbol gap (by decide),
      words_append, words_symbol _ (by decide)]
    exact .bracket hf.1 ht rfl rfl ((hr.expr hi hf.2.1 false [] indent).append
      (.symbol hf.2.2.1 hu rfl (by decide) .nil))
  | array ht hi =>
    rw [List.forall_mem_cons] at hf
    obtain ⟨ws, heach, hyields⟩ := ListWritten.yields_closed (by decide) (by decide) rfl
      (fun _ _ he hf => hr.value he hf) hi hf.2
    rw [Expr.chunks, ExprKind.chunks, List.cons_append, words_symbol gap (by decide),
      words_append, Expr.words_items heach, words_symbol _ (by decide)]
    exact .bracket hf.1 ht rfl rfl (hyields false)
  | object ht _ he =>
    rw [List.forall_mem_cons] at hf
    obtain ⟨ws, heach, hyields⟩ := ListWritten.yields_closed (by decide) (by decide) rfl
      (fun _ _ hst hf => hr.statement hst hf) he hf.2
    rw [Expr.chunks, ExprKind.chunks, List.cons_append, words_symbol gap (by decide),
      words_append, Statement.words_items heach, words_symbol _ (by decide)]
    exact .bracket hf.1 ht rfl rfl (hyields false)

theorem Block.TrailingWritten.yields (hr : rules.Yielding source) {o : Option Block}
    (h : Block.TrailingWritten rules s o ts) (hf : ∀ t ∈ ts, t.Faithful source) :
    Yields true ts (Chunk.words (Block.chunksTrailing (StringLiteral.quoted source) indent o)) := by
  cases h with
  | none => exact .nil
  | some _ _ hb => exact hb.yields hr hf

/-- The words of what an operator builds are those of its left side and of what follows. -/
theorem Expr.Extends.yields (hr : rules.Yielding source) {left e : Expr} {o : Operator} {t : Token}
    (h : Expr.Extends rules s left o (t :: us) e) (ho : Operator.ofKind? t.kind = some o)
    (hl : Yields b ts (Chunk.words (left.chunks (StringLiteral.quoted source) gap indent)))
    (hf : ∀ u ∈ t :: us, u.Faithful source) :
    Yields b (ts ++ t :: us)
      (Chunk.words (e.chunks (StringLiteral.quoted source) gap indent)) := by
  have hk := Operator.kind_eq ho
  rw [List.forall_mem_cons] at hf
  cases h with
  | @binary op _ _ right hop hright =>
    rw [hop] at hk
    rw [Expr.chunks, ExprKind.chunks, words_append, words_symbol _ (by cases op <;> decide)]
    refine hl.append ?_
    cases op <;> exact .symbol hf.1 hk rfl (by decide) (hr.expr hright hf.2 true [' '] indent)
  | @comparison op _ _ right hop hright =>
    rw [hop] at hk
    rw [Expr.chunks, ExprKind.chunks, words_append, words_symbol _ (by cases op <;> decide)]
    refine hl.append ?_
    cases op <;> exact .symbol hf.1 hk rfl (by decide) (hr.expr hright hf.2 true [' '] indent)
  | pair hop hkey hv =>
    rw [hop] at hk
    rw [Expr.chunks, ExprKind.chunks, words_append, words_symbol _ (by decide),
      PairKey.chunks_eq hkey]
    exact hl.append (.symbol hf.1 hk rfl (by decide) (hr.value hv hf.2 true [' '] indent))
  | transition hop hs ht =>
    rw [hop] at hk
    obtain ⟨kind, span⟩ := left
    obtain rfl : kind = _ := hs
    rw [Expr.chunks, ExprKind.chunks] at hl
    rw [Expr.chunks, ExprKind.chunks, words_append, words_symbol _ (by decide)]
    exact hl.append (.symbol hf.1 hk rfl (by decide) (ht.yields hf.2))
  | call hop ha hb =>
    rw [hop] at hk
    rw [List.forall_mem_append] at hf
    obtain ⟨ws, heach, hyields⟩ := ListWritten.yields_closed (by decide) (by decide) rfl
      (fun _ _ he hf => hr.expr he hf) ha hf.2.1
    rw [Expr.chunks, ExprKind.chunks]
    simp only [List.cons_append, List.append_assoc, words_append, List.nil_append,
      words_symbol [] (k := .openParen) (by decide), words_symbol [] (k := .closeParen) (by decide)]
    rw [Expr.words_items heach, List.append_cons ws]
    exact hl.append (.bracket hf.1 hk rfl rfl ((hyields false).append (hb.yields hr hf.2.2)))

theorem Expr.Written.yields (hr : rules.Yielding source) {e : Expr} (h : e.Written rules s min ts)
    (hf : ∀ t ∈ ts, t.Faithful source) :
    Yields b ts (Chunk.words (e.chunks (StringLiteral.quoted source) gap indent)) := by
  induction h with
  | operand he => exact he.yields hr hf
  | extend _ _ ho he ih =>
    rw [List.forall_mem_append] at hf
    exact he.yields hr ho.operator (ih hf.1) hf.2

end Script
