import Script.Proofs.Moved.Expression

/-!
What `if`, `for` and `when` are written as when their tokens are moved.
-/
namespace Script

variable {σ : Nat → Nat} {rules rules' : Rules} {s : Surroundings} {min : Strength}
  {ts : List Token}

theorem ElseIf.EachWritten.move (hr : rules.Moving σ rules') {es : List ElseIf}
    (h : ElseIf.EachWritten rules s es ts) (hts : RigidOn σ ts) :
    ElseIf.EachWritten rules' s (ElseIf.mapSpansEach (Span.move σ) es)
      (ts.map (Token.move σ)) := by
  induction h with
  | nil => exact .nil
  | cons he _ ih =>
    rw [RigidOn, List.forall_mem_append] at hts
    obtain ⟨hfirst, hrest⟩ := hts
    rw [List.map_append]
    refine .cons ?_ (ih hrest)
    cases he with
    | mk ht hu hc hb =>
      rw [ElseIf.mapSpans, ← Token.move_spanOf hr.ordered hfirst (by simp)]
      simp only [List.forall_mem_cons, List.forall_mem_append] at hfirst
      simp only [List.map_cons, List.map_append]
      exact .mk ht hu (hr.expr hc hfirst.2.2.1) (hb.move hr hfirst.2.2.2)

theorem Block.ElseWritten.move (hr : rules.Moving σ rules') {o : Option Block}
    (h : Block.ElseWritten rules o ts) (hts : RigidOn σ ts) :
    Block.ElseWritten rules' (Block.mapSpansOption (Span.move σ) o) (ts.map (Token.move σ)) := by
  cases h with
  | none => exact .none
  | some ht hb =>
    rw [RigidOn, List.forall_mem_cons] at hts
    exact .some ht (hb.move hr hts.2)

theorem IfStmt.Written.move (hr : rules.Moving σ rules') {stmt : IfStmt}
    (h : stmt.Written rules s ts) (hts : RigidOn σ ts) :
    (stmt.mapSpans (Span.move σ)).Written rules' s (ts.map (Token.move σ)) := by
  cases h with
  | mk ht hc hb hes hl =>
    rw [IfStmt.mapSpans, ← Token.move_spanOf hr.ordered hts (by simp)]
    simp only [RigidOn, List.forall_mem_cons, List.forall_mem_append] at hts
    obtain ⟨-, hts, hus, hvs, hws⟩ := hts
    simp only [List.map_cons, List.map_append]
    exact .mk ht (hr.expr hc hts) (hb.move hr hus) (hes.move hr hvs) (hl.move hr hws)

theorem VarDecl.Written.move (hr : rules.Moving σ rules') {d : VarDecl}
    (h : d.Written rules s ts) (hts : RigidOn σ ts) :
    (d.mapSpans (Span.move σ)).Written rules' s (ts.map (Token.move σ)) := by
  cases h with
  | mk ht hn hy hv he =>
    rw [VarDecl.mapSpans, ← Token.move_spanOf hr.ordered hts (by simp)]
    simp only [RigidOn, List.forall_mem_cons, List.forall_mem_append] at hts
    obtain ⟨-, hname, hts, -, hus⟩ := hts
    simp only [List.map_cons, List.map_append]
    exact .mk ht (hn.move hname) (hy.move hr.ordered hts) hv (hr.value he hus)

theorem VarDecl.InitWritten.move (hr : rules.Moving σ rules') {ds : List VarDecl}
    (h : VarDecl.InitWritten rules s ds ts) (hts : RigidOn σ ts) :
    VarDecl.InitWritten rules' s (VarDecl.mapSpansEach (Span.move σ) ds)
      (ts.map (Token.move σ)) := by
  induction h with
  | nil => exact .nil
  | cons hd ht _ ih =>
    rw [RigidOn, List.forall_mem_append, List.forall_mem_cons] at hts
    rw [List.map_append, List.map_cons]
    exact .cons (hd.move hr hts.1) ht (ih hts.2.2)

theorem ForHead.Written.move (hr : rules.Moving σ rules') {head : ForHead}
    (h : head.Written rules s ts) (hts : RigidOn σ ts) :
    (head.mapSpans (Span.move σ)).Written rules' s (ts.map (Token.move σ)) := by
  cases h with
  | iterate hn hw hu hi =>
    simp only [RigidOn, List.forall_mem_cons] at hts
    exact .iterate (hn.move hts.1) hw hu (hr.value hi hts.2.2)
  | indexed hx hw hc hn hu hi =>
    simp only [RigidOn, List.forall_mem_cons] at hts
    exact .indexed (hx.move hts.1) hw hc (hn.move hts.2.2.1) hu (hr.value hi hts.2.2.2.2)
  | init hd => exact .init (hd.move hr hts)
  | counted hd hc =>
    rw [RigidOn, List.forall_mem_append] at hts
    rw [List.map_append]
    exact .counted (hd.move hr hts.1) (hr.expr hc hts.2)

theorem ForStmt.Written.move (hr : rules.Moving σ rules') {stmt : ForStmt}
    (h : stmt.Written rules s ts) (hts : RigidOn σ ts) :
    (stmt.mapSpans (Span.move σ)).Written rules' s (ts.map (Token.move σ)) := by
  cases h with
  | mk ht hh hb =>
    rw [ForStmt.mapSpans, ← Token.move_spanOf hr.ordered hts (by simp)]
    simp only [RigidOn, List.forall_mem_cons, List.forall_mem_append] at hts
    simp only [List.map_cons, List.map_append]
    exact .mk ht (hh.move hr hts.2.1) (hb.move hr hts.2.2)

theorem CaseBody.Written.move (hr : rules.Moving σ rules') {body : CaseBody}
    (h : body.Written rules s ts) (hts : RigidOn σ ts) :
    (body.mapSpans (Span.move σ)).Written rules' s (ts.map (Token.move σ)) := by
  cases h with
  | arrow ht hs =>
    rw [RigidOn, List.forall_mem_cons] at hts
    exact .arrow ht (hr.statement hs hts.2)
  | block hb => exact .block (hb.move hr hts)

theorem WhenCase.Written.move (hr : rules.Moving σ rules') {c : WhenCase}
    (h : c.Written rules s ts) (hts : RigidOn σ ts) :
    (c.mapSpans (Span.move σ)).Written rules' s (ts.map (Token.move σ)) := by
  cases h with
  | @mk t ts us pattern body ht hp hc hb =>
    rw [WhenCase.mapSpans, ← Token.move_spanOf hr.ordered hts (by simp)]
    simp only [RigidOn, List.forall_mem_cons, List.forall_mem_append] at hts
    simp only [List.map_cons, List.map_append]
    refine .mk ht (hr.expr hp hts.2.1) ?_ (hb.move hr hts.2.2)
    exact pattern.closes_mapSpans.2 (hc.mono (alike_move σ us).looser)

theorem CaseBody.ElseWritten.move (hr : rules.Moving σ rules') {o : Option CaseBody}
    (h : CaseBody.ElseWritten rules o ts) (hts : RigidOn σ ts) :
    CaseBody.ElseWritten rules' (CaseBody.mapSpansOption (Span.move σ) o)
      (ts.map (Token.move σ)) := by
  cases h with
  | none ht => exact .none ht
  | some ht hb hu =>
    simp only [RigidOn, List.forall_mem_cons, List.forall_mem_append] at hts
    simp only [List.map_cons, List.map_append, List.map_nil]
    exact .some ht (hb.move hr hts.2.1) hu
  | separated ht hb hv hu =>
    simp only [RigidOn, List.forall_mem_cons, List.forall_mem_append] at hts
    simp only [List.map_cons, List.map_append, List.map_nil]
    exact .separated ht (hb.move hr hts.2.1) hv hu

theorem WhenCase.EachWritten.move (hr : rules.Moving σ rules') {cs : List WhenCase}
    {o : Option CaseBody} (h : WhenCase.EachWritten rules o cs ts) (hts : RigidOn σ ts) :
    WhenCase.EachWritten rules' (CaseBody.mapSpansOption (Span.move σ) o)
      (WhenCase.mapSpansEach (Span.move σ) cs) (ts.map (Token.move σ)) := by
  induction h with
  | done hl => exact .done (hl.move hr hts)
  | @separated c cs t ts us hc he ht _ ih =>
    rw [RigidOn, List.forall_mem_append, List.forall_mem_cons] at hts
    rw [List.map_append, List.map_cons]
    refine .separated (hc.move hr hts.1) ?_ ht (ih hts.2.2)
    obtain ⟨pattern, body, span⟩ := c
    exact body.endsBefore_mapSpans.2 ((alike_move σ (t :: us)).caseBody he)
  | @unseparated c cs t ts us hc he ht hb _ ih =>
    rw [RigidOn, List.forall_mem_append] at hts
    rw [List.map_append, List.map_cons]
    refine .unseparated (hc.move hr hts.1) ?_ ht hb (ih hts.2)
    obtain ⟨pattern, body, span⟩ := c
    exact body.endsBefore_mapSpans.2 ((alike_move σ (t :: us)).caseBody he)

theorem WhenStmt.Written.move (hr : rules.Moving σ rules') {stmt : WhenStmt}
    (h : stmt.Written rules s ts) (hts : RigidOn σ ts) :
    (stmt.mapSpans (Span.move σ)).Written rules' s (ts.map (Token.move σ)) := by
  cases h with
  | mk ht hi hs hu hc =>
    rw [WhenStmt.mapSpans, ← Token.move_spanOf hr.ordered hts (by simp)]
    simp only [RigidOn, List.forall_mem_cons, List.forall_mem_append] at hts
    obtain ⟨-, hts, hus, -, hvs⟩ := hts
    simp only [List.map_cons, List.map_append]
    exact .mk ht (hi.move hr hts) (hr.expr hs hus) hu (hc.move hr hvs)

theorem Expr.ValueWritten.move (hr : rules.Moving σ rules') {e : Expr}
    (h : e.ValueWritten rules s min ts) (hts : RigidOn σ ts) :
    (e.mapSpans (Span.move σ)).ValueWritten rules' s min (ts.map (Token.move σ)) := by
  cases h with
  | ifExpr hs =>
    rw [Expr.mapSpans, ExprKind.mapSpans, ← Token.move_spanOf hr.ordered hts hs.begin.ne_nil]
    exact .ifExpr (hs.move hr hts)
  | whenExpr hs =>
    rw [Expr.mapSpans, ExprKind.mapSpans, ← Token.move_spanOf hr.ordered hts hs.begin.ne_nil]
    exact .whenExpr (hs.move hr hts)
  | expr he => exact .expr (he.move hr hts)

end Script
