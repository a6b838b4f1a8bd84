import Script.Proofs.Renamed.Expression

/-!
`if`, `for` and `when` with an identifier spelled anew.
-/
namespace Script

variable {r : Renaming} {rules : Rules} {s : Surroundings} {min : Strength} {ts : List Token}
  (hr : rules.Renames r)
include hr

theorem ElseIf.EachWritten.rename {es : List ElseIf} (h : ElseIf.EachWritten rules s es ts) :
    ElseIf.EachWritten rules s (ElseIf.mapIdentsEach r.ident es) (r.tokens ts) := by
  induction h with
  | nil => exact .nil
  | cons he _ ih =>
    rw [r.tokens_append]
    refine .cons ?_ ih
    cases he with
    | mk ht hu hc hb =>
      rw [ElseIf.mapIdents, ← r.spanOf_tokens]
      simp only [r.tokens_cons, r.tokens_append]
      exact .mk (r.keyword? ht) (r.keyword? hu) (hr.expr hc) (hb.rename hr)

theorem Block.ElseWritten.rename {o : Option Block} (h : Block.ElseWritten rules o ts) :
    Block.ElseWritten rules (Block.mapIdentsOption r.ident o) (r.tokens ts) := by
  cases h with
  | none => exact .none
  | some ht hb => exact .some (r.keyword? ht) (hb.rename hr)

theorem IfStmt.Written.rename {stmt : IfStmt} (h : stmt.Written rules s ts) :
    (stmt.mapIdents r.ident).Written rules s (r.tokens ts) := by
  cases h with
  | mk ht hc hb hes hl =>
    rw [IfStmt.mapIdents, ← r.spanOf_tokens]
    simp only [r.tokens_cons, r.tokens_append]
    exact .mk (r.keyword? ht) (hr.expr hc) (hb.rename hr) (hes.rename hr) (hl.rename hr)

theorem VarDecl.Written.rename {d : VarDecl} (h : d.Written rules s ts) :
    (d.mapIdents r.ident).Written rules s (r.tokens ts) := by
  cases h with
  | mk ht hn hy hv he =>
    rw [VarDecl.mapIdents, ← r.spanOf_tokens]
    simp only [r.tokens_cons, r.tokens_append]
    exact .mk (r.keyword? ht) hn.rename hy.rename hv (hr.value he)

theorem VarDecl.InitWritten.rename {ds : List VarDecl} (h : VarDecl.InitWritten rules s ds ts) :
    VarDecl.InitWritten rules s (VarDecl.mapIdentsEach r.ident ds) (r.tokens ts) := by
  induction h with
  | nil => exact .nil
  | cons hd ht _ ih =>
    rw [r.tokens_append, r.tokens_cons]
    exact .cons (hd.rename hr) ht ih

theorem ForHead.Written.rename {head : ForHead} (h : head.Written rules s ts) :
    (head.mapIdents r.ident).Written rules s (r.tokens ts) := by
  cases h with
  | iterate hn hw hu hi => exact .iterate hn.rename (r.not_binding hw) (r.keyword? hu) (hr.value hi)
  | indexed hx hw hc hn hu hi =>
    exact .indexed hx.rename (r.not_binding hw) hc hn.rename (r.keyword? hu) (hr.value hi)
  | init hd => exact .init (hd.rename hr)
  | counted hd hc =>
    rw [r.tokens_append]
    exact .counted (hd.rename hr) (hr.expr hc)

theorem ForStmt.Written.rename {stmt : ForStmt} (h : stmt.Written rules s ts) :
    (stmt.mapIdents r.ident).Written rules s (r.tokens ts) := by
  cases h with
  | mk ht hh hb =>
    rw [ForStmt.mapIdents, ← r.spanOf_tokens]
    simp only [r.tokens_cons, r.tokens_append]
    exact .mk (r.keyword? ht) (hh.rename hr) (hb.rename hr)

theorem CaseBody.Written.rename {body : CaseBody} (h : body.Written rules s ts) :
    (body.mapIdents r.ident).Written rules s (r.tokens ts) := by
  cases h with
  | arrow ht hs => exact .arrow ht (hr.statement hs)
  | block hb => exact .block (hb.rename hr)

theorem WhenCase.Written.rename {c : WhenCase} (h : c.Written rules s ts) :
    (c.mapIdents r.ident).Written rules s (r.tokens ts) := by
  cases h with
  | @mk t ts us pattern body ht hp hc hb =>
    rw [WhenCase.mapIdents, ← r.spanOf_tokens]
    simp only [r.tokens_cons, r.tokens_append]
    refine .mk (r.keyword? ht) (hr.expr hp) ?_ (hb.rename hr)
    exact pattern.closes_mapIdents.2 (hc.mono (r.alike us).looser)

theorem CaseBody.ElseWritten.rename {o : Option CaseBody} (h : CaseBody.ElseWritten rules o ts) :
    CaseBody.ElseWritten rules (CaseBody.mapIdentsOption r.ident o) (r.tokens ts) := by
  cases h with
  | none ht => exact .none ht
  | some ht hb hu =>
    simp only [r.tokens_cons, r.tokens_append, r.tokens_nil]
    exact .some (r.keyword? ht) (hb.rename hr) hu
  | separated ht hb hv hu =>
    simp only [r.tokens_cons, r.tokens_append, r.tokens_nil]
    exact .separated (r.keyword? ht) (hb.rename hr) hv hu

theorem WhenCase.EachWritten.rename {cs : List WhenCase} {o : Option CaseBody}
    (h : WhenCase.EachWritten rules o cs ts) :
    WhenCase.EachWritten rules (CaseBody.mapIdentsOption r.ident o)
      (WhenCase.mapIdentsEach r.ident cs) (r.tokens ts) := by
  induction h with
  | done hl => exact .done (hl.rename hr)
  | @separated c cs t ts us hc he ht _ ih =>
    rw [r.tokens_append, r.tokens_cons]
    refine .separated (hc.rename hr) ?_ ht ih
    obtain ⟨pattern, body, span⟩ := c
    exact body.endsBefore_mapIdents.2 ((r.alike (t :: us)).caseBody he)
  | @unseparated c cs t ts us hc he ht hb _ ih =>
    rw [r.tokens_append, r.tokens_cons]
    refine .unseparated (hc.rename hr) ?_ ht hb ih
    obtain ⟨pattern, body, span⟩ := c
    exact body.endsBefore_mapIdents.2 ((r.alike (t :: us)).caseBody he)

theorem WhenStmt.Written.rename {stmt : WhenStmt} (h : stmt.Written rules s ts) :
    (stmt.mapIdents r.ident).Written rules s (r.tokens ts) := by
  cases h with
  | mk ht hi hs hu hc =>
    rw [WhenStmt.mapIdents, ← r.spanOf_tokens]
    simp only [r.tokens_cons, r.tokens_append]
    exact .mk (r.keyword? ht) (hi.rename hr) (hr.expr hs) hu (hc.rename hr)

theorem Expr.ValueWritten.rename {e : Expr} (h : e.ValueWritten rules s min ts) :
    (e.mapIdents r.ident).ValueWritten rules s min (r.tokens ts) := by
  cases h with
  | ifExpr hs =>
    rw [Expr.mapIdents, ExprKind.mapIdents, ← r.spanOf_tokens]
    exact .ifExpr (hs.rename hr)
  | whenExpr hs =>
    rw [Expr.mapIdents, ExprKind.mapIdents, ← r.spanOf_tokens]
    exact .whenExpr (hs.rename hr)
  | expr he => exact .expr (he.rename hr)

end Script
