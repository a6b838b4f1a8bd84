import Script.Proofs.Words.Expression

/-!
The words of `if`, `for` and `when`, and of what stands where a value is expected.
-/
namespace Script

open Chunk

variable {rules : Rules} {s : Surroundings} {min : Strength} {source : String} {b : Bool}
  {ts : List Token} {gap : List Char} {indent : Nat}

theorem ElseIf.EachWritten.yields (hr : rules.Yielding source) {es : List ElseIf}
    (h : ElseIf.EachWritten rules s es ts) (hf : ∀ t ∈ ts, t.Faithful source) :
    Yields true ts (Chunk.words (ElseIf.chunksEach (StringLiteral.quoted source) indent es)) := by
  induction h with
  | nil => exact .nil
  | cons he _ ih =>
    cases he with
    | mk ht hu hc hb =>
      simp only [List.forall_mem_append, List.forall_mem_cons] at hf
      obtain ⟨⟨-, -, hts, hus⟩, hrest⟩ := hf
      simp only [ElseIf.chunksEach, ElseIf.chunks, List.cons_append, List.append_assoc,
        words_keyword, words_append]
      exact .keyword ht (.keyword hu ((hr.expr hc hts true [' '] indent).append
        ((hb.yields hr hus).append (ih hrest))))

theorem Block.ElseWritten.yields (hr : rules.Yielding source) {o : Option Block}
    (h : Block.ElseWritten rules o ts) (hf : ∀ t ∈ ts, t.Faithful source) :
    Yields true ts (Chunk.words (Block.chunksElse (StringLiteral.quoted source) indent o)) := by
  cases h with
  | none => exact .nil
  | some ht hb =>
    rw [List.forall_mem_cons] at hf
    rw [Block.chunksElse, words_keyword]
    exact .keyword ht (hb.yields hr hf.2)

theorem IfStmt.Written.yields (hr : rules.Yielding source) {stmt : IfStmt}
    (h : stmt.Written rules s ts) (hf : ∀ t ∈ ts, t.Faithful source) :
    Yields b ts (Chunk.words (stmt.chunks (StringLiteral.quoted source) gap indent)) := by
  cases h with
  | mk ht hc hb hes hl =>
    simp only [List.forall_mem_cons, List.forall_mem_append] at hf
    obtain ⟨-, hts, hus, hvs, hws⟩ := hf
    simp only [IfStmt.chunks, List.cons_append, List.append_assoc, words_keyword, words_append]
    exact .keyword ht ((hr.expr hc hts true [' '] indent).append ((hb.yields hr hus).append
      ((hes.yields hr hvs).append (hl.yields hr hws))))

theorem VarDecl.Written.yields (hr : rules.Yielding source) {d : VarDecl} (h : d.Written rules s ts)
    (hf : ∀ t ∈ ts, t.Faithful source) :
    Yields b ts (Chunk.words (d.chunks (StringLiteral.quoted source) gap indent)) := by
  cases h with
  | mk ht hn hy hv he =>
    simp only [List.forall_mem_cons, List.forall_mem_append] at hf
    obtain ⟨-, -, hts, hv', hus⟩ := hf
    simp only [VarDecl.chunks, List.cons_append, words_keyword, words_ident, words_append,
      words_symbol [' '] (k := .assign) (by decide)]
    exact .keyword ht (.ident hn ((hy.yields hts).append
      (.symbol hv' hv rfl (by decide) (hr.value he hus true [' '] indent))))

/-- The bindings of a head end with a semicolon, which only what follows them makes separate. -/
theorem VarDecl.InitWritten.yields (hr : rules.Yielding source) {ds : List VarDecl}
    {us : List Token} {ws : List Word} (h : VarDecl.InitWritten rules s ds ts)
    (hf : ∀ t ∈ ts, t.Faithful source) (hus : ∀ b, Yields b us ws) :
    Yields b (ts ++ us)
      (Chunk.words (VarDecl.chunksInit (StringLiteral.quoted source) indent ds) ++ ws) := by
  induction h generalizing b with
  | nil => exact hus b
  | cons hd ht _ ih =>
    rw [List.forall_mem_append, List.forall_mem_cons] at hf
    simp only [VarDecl.chunksInit, List.append_assoc, List.cons_append, words_append,
      words_semicolon]
    exact (hd.yields hr hf.1).append (.separator (.inr ht) (ih hf.2.2))

theorem ForHead.Written.yields (hr : rules.Yielding source) {head : ForHead} {us : List Token}
    {ws : List Word} (h : head.Written rules s ts) (hf : ∀ t ∈ ts, t.Faithful source)
    (hus : ∀ b, Yields b us ws) :
    Yields true (ts ++ us)
      (Chunk.words (head.chunks (StringLiteral.quoted source) indent) ++ ws) := by
  cases h with
  | iterate hn _ hu hi =>
    simp only [List.forall_mem_cons] at hf
    simp only [ForHead.chunks, words_ident, words_keyword, List.cons_append]
    exact .ident hn (.keyword hu ((hr.value hi hf.2.2 true [' '] indent).append (hus true)))
  | indexed hx _ hc hn hu hi =>
    simp only [List.forall_mem_cons] at hf
    simp only [ForHead.chunks, words_ident, words_comma, words_keyword, List.cons_append]
    exact .ident hx (.separator (.inl hc) (.ident hn (.keyword hu
      ((hr.value hi hf.2.2.2.2 true [' '] indent).append (hus true)))))
  | init hd => exact hd.yields hr hf hus
  | counted hd hc =>
    rw [List.forall_mem_append] at hf
    rw [ForHead.chunks, words_append, List.append_assoc, List.append_assoc]
    exact hd.yields hr hf.1 fun b => (hr.expr hc hf.2 b [' '] indent).append (hus true)

theorem ForStmt.Written.yields (hr : rules.Yielding source) {stmt : ForStmt}
    (h : stmt.Written rules s ts) (hf : ∀ t ∈ ts, t.Faithful source) :
    Yields b ts (Chunk.words (stmt.chunks (StringLiteral.quoted source) gap indent)) := by
  cases h with
  | mk ht hh hb =>
    rw [List.forall_mem_cons, List.forall_mem_append] at hf
    simp only [ForStmt.chunks, List.cons_append, words_keyword, words_append]
    exact .keyword ht (hh.yields hr hf.2.1 fun b => hb.yields hr hf.2.2)

theorem CaseBody.Written.yields (hr : rules.Yielding source) {body : CaseBody}
    (h : body.Written rules s ts) (hf : ∀ t ∈ ts, t.Faithful source) :
    Yields b ts (Chunk.words (body.chunks (StringLiteral.quoted source) indent)) := by
  cases h with
  | arrow ht hs =>
    rw [List.forall_mem_cons] at hf
    rw [CaseBody.chunks, words_symbol _ (by decide)]
    exact .symbol hf.1 ht rfl (by decide) (hr.statement hs hf.2 true [' '] indent)
  | block hb => exact hb.yields hr hf

theorem WhenCase.Written.yields (hr : rules.Yielding source) {c : WhenCase}
    (h : c.Written rules s ts) (hf : ∀ t ∈ ts, t.Faithful source) :
    Yields b ts (Chunk.words (c.chunks (StringLiteral.quoted source) gap indent)) := by
  cases h with
  | mk ht hp _ hb =>
    rw [List.forall_mem_cons, List.forall_mem_append] at hf
    simp only [WhenCase.chunks, List.cons_append, words_keyword, words_append]
    exact .keyword ht ((hr.expr hp hf.2.1 true [' '] indent).append (hb.yields hr hf.2.2))

theorem CaseBody.ElseWritten.yields (hr : rules.Yielding source) {o : Option CaseBody}
    (h : CaseBody.ElseWritten rules o ts) (hf : ∀ t ∈ ts, t.Faithful source) :
    Yields b ts (Chunk.words (CaseBody.chunksElse (StringLiteral.quoted source) indent o) ++
      [.symbol .closeBrace]) := by
  cases h with
  | none ht =>
    rw [List.forall_mem_singleton] at hf
    exact .symbol hf ht rfl (by decide) .nil
  | some ht hb hu =>
    simp only [List.forall_mem_cons, List.forall_mem_append] at hf
    rw [CaseBody.chunksElse, words_keyword]
    exact .keyword ht ((hb.yields hr hf.2.1).append
      (.symbol hf.2.2.1 hu rfl (by decide) .nil))
  | separated ht hb hv hu =>
    simp only [List.forall_mem_cons, List.forall_mem_append] at hf
    rw [CaseBody.chunksElse, words_keyword]
    exact .keyword ht ((hb.yields hr hf.2.1).append
      (.separator (.inr hv) (.symbol hf.2.2.2.1 hu rfl (by decide) .nil)))

theorem WhenCase.EachWritten.yields (hr : rules.Yielding source) {cs : List WhenCase}
    {o : Option CaseBody} (h : WhenCase.EachWritten rules o cs ts)
    (hf : ∀ t ∈ ts, t.Faithful source) :
    Yields b ts (Chunk.words (WhenCase.chunksLines (StringLiteral.quoted source) indent cs) ++
      (Chunk.words (CaseBody.chunksElse (StringLiteral.quoted source) indent o) ++
        [.symbol .closeBrace])) := by
  induction h generalizing b with
  | done hl => exact hl.yields hr hf
  | separated hc _ ht _ ih =>
    rw [List.forall_mem_append, List.forall_mem_cons] at hf
    rw [WhenCase.chunksLines, words_append, List.append_assoc]
    exact (hc.yields hr hf.1).append (.separator (.inr ht) (ih hf.2.2))
  | unseparated hc _ _ _ _ ih =>
    rw [List.forall_mem_append] at hf
    rw [WhenCase.chunksLines, words_append, List.append_assoc]
    exact (hc.yields hr hf.1).append (ih hf.2)

theorem WhenStmt.Written.yields (hr : rules.Yielding source) {stmt : WhenStmt}
    (h : stmt.Written rules s ts) (hf : ∀ t ∈ ts, t.Faithful source) :
    Yields b ts (Chunk.words (stmt.chunks (StringLiteral.quoted source) gap indent)) := by
  cases h with
  | mk ht hi hs hu hc =>
    simp only [List.forall_mem_cons, List.forall_mem_append] at hf
    obtain ⟨-, hts, hus, hu', hvs⟩ := hf
    simp only [WhenStmt.chunks, List.cons_append, List.append_assoc, words_keyword, words_append,
      words_symbol [' '] (k := .openBrace) (by decide)]
    rw [words_symbol (lineGap indent) (by decide)]
    exact .keyword ht (hi.yields hr hts fun b => (hr.expr hs hus b [' '] indent).append
      (.bracket hu' hu rfl rfl (hc.yields hr hvs)))

theorem Expr.ValueWritten.yields (hr : rules.Yielding source) {e : Expr}
    (h : e.ValueWritten rules s min ts) (hf : ∀ t ∈ ts, t.Faithful source) :
    Yields b ts (Chunk.words (e.chunks (StringLiteral.quoted source) gap indent)) := by
  cases h with
  | ifExpr hs => exact hs.yields hr hf
  | whenExpr hs => exact hs.yields hr hf
  | expr he => exact he.yields hr hf

end Script
