import Script.Proofs.Ends
import Script.Rules.Statement

/-!
Where line breaks end an operand, an operator has to stand on the line of its left side. Where they
end nothing it still may, so that what is written where they do is written where they do not. What
stands in brackets of its own is told by these brackets and is not looked at.
-/
namespace Script

/-- The same surroundings with line breaks that end nothing. -/
abbrev Surroundings.loose (s : Surroundings) : Surroundings := { s with breakEnds := false }

variable {s : Surroundings} {min : Strength} {r ts us : List Token} {t : Token} {rules : Rules}

theorem Applies.loose {o : Operator} (h : Applies s min t o) : Applies s.loose min t o :=
  ⟨Bool.and_false _, h.operator, h.strong⟩

/-- Tokens that do not begin with a line break where that would end an operand. -/
def OnLine (s : Surroundings) (r : List Token) : Prop :=
  ∀ t ∈ r.head?, (t.newlineBefore && s.breakEnds) = false

theorem Applies.onLine {o : Operator} (h : Applies s min t o) (us : List Token) :
    OnLine s (t :: us) := by
  intro u hu
  obtain rfl := Option.some.inj hu
  exact h.sameLine

theorem Stops.loose (hr : OnLine s r) (h : Stops s min r) : Stops s.loose min r :=
  fun t ht o ho => h t ht o ⟨hr t ht, ho.operator, ho.strong⟩

/-- An operand that ends before an operator ends there in any surroundings. -/
theorem Expr.EndsBefore.loose (hr : OnLine s r) :
    ∀ {e : Expr}, e.EndsBefore s r → e.EndsBefore s.loose r
  | ⟨.name _, _⟩, h => h
  | ⟨.transition _ _, _⟩, h => h
  | ⟨.unary _ _, _⟩, h => ⟨loose hr h.1, h.2.loose hr⟩
  | ⟨.binary _ _ _ _, _⟩, h => ⟨loose hr h.1, h.2.loose hr⟩
  | ⟨.comparison _ _ _ _, _⟩, h => ⟨loose hr h.1, h.2.loose hr⟩
  | ⟨.call _ _ none, _⟩, h => h
  | ⟨.call _ _ (some _), _⟩, _ => trivial
  | ⟨.pair _ _, _⟩, h => ⟨loose hr h.1, fun hv => (h.2 hv).loose hr⟩
  | ⟨.ifExpr _, _⟩, h => h
  | ⟨.whenExpr _, _⟩, _ => trivial
  | ⟨.literal _, _⟩, _ => trivial
  | ⟨.group _, _⟩, _ => trivial
  | ⟨.object _, _⟩, _ => trivial
  | ⟨.array _, _⟩, _ => trivial

/-- What is nested inside a construct is written alike where line breaks end nothing. -/
structure Rules.Relaxing (rules : Rules) : Prop where
  expr : ∀ {s min e ts}, rules.expr s min e ts → rules.expr s.loose min e ts
  value : ∀ {s min e ts}, rules.value s min e ts → rules.value s.loose min e ts

section Relaxing

variable (hr : rules.Relaxing)
include hr

theorem Expr.OperandWritten.loose {e : Expr} (h : e.OperandWritten rules s ts) :
    e.OperandWritten rules s.loose ts := by
  cases h with
  | unary ht ho => exact .unary ht (hr.expr ho)
  | word ht hl => exact .word ht hl
  | name hn => exact .name hn
  | number ht => exact .number ht
  | string ht hl => exact .string ht hl
  | group ht hi hu => exact .group ht hi hu
  | array ht hi => exact .array ht hi
  | object ht hs he => exact .object ht hs he

theorem Expr.Extends.loose {left e : Expr} {o : Operator} (h : Expr.Extends rules s left o ts e) :
    Expr.Extends rules s.loose left o ts e := by
  cases h with
  | binary ho hw => exact .binary ho (hr.expr hw)
  | comparison ho hw => exact .comparison ho (hr.expr hw)
  | pair ho hk hv => exact .pair ho hk (hr.value hv)
  | transition ho hs ht => exact .transition ho hs ht
  | call ho ha hb =>
    refine .call ho ha ?_
    cases hb with
    | none => exact .none
    | some hs hc hb => exact .some hs hc hb

theorem Expr.Written.loose {e : Expr} (h : e.Written rules s min ts) :
    e.Written rules s.loose min ts := by
  induction h with
  | operand he => exact .operand (he.loose hr)
  | @extend left e o t ts us _ hle ho he ih =>
    exact .extend ih (hle.loose (ho.onLine us)) ho.loose (he.loose hr)

theorem ElseIf.EachWritten.loose {es : List ElseIf} (h : ElseIf.EachWritten rules s es ts) :
    ElseIf.EachWritten rules s.loose es ts := by
  induction h with
  | nil => exact .nil
  | cons he _ ih =>
    refine .cons ?_ ih
    cases he with
    | mk ht hu hc hb => exact .mk ht hu (hr.expr hc) hb

theorem IfStmt.Written.loose {stmt : IfStmt} (h : stmt.Written rules s ts) :
    stmt.Written rules s.loose ts := by
  cases h with
  | mk ht hc hb hes hl => exact .mk ht (hr.expr hc) hb (hes.loose hr) hl

theorem VarDecl.InitWritten.loose {ds : List VarDecl} (h : VarDecl.InitWritten rules s ds ts) :
    VarDecl.InitWritten rules s.loose ds ts := by
  induction h with
  | nil => exact .nil
  | cons hd ht _ ih =>
    refine .cons ?_ ht ih
    cases hd with
    | mk ht hn hy hv he => exact .mk ht hn hy hv (hr.value he)

theorem WhenStmt.Written.loose {stmt : WhenStmt} (h : stmt.Written rules s ts) :
    stmt.Written rules s.loose ts := by
  cases h with
  | mk ht hi hs hu hc => exact .mk ht (hi.loose hr) (hr.expr hs) hu hc

theorem Expr.ValueWritten.loose {e : Expr} (h : e.ValueWritten rules s min ts) :
    e.ValueWritten rules s.loose min ts := by
  cases h with
  | ifExpr hs => exact .ifExpr (hs.loose hr)
  | whenExpr hs => exact .whenExpr (hs.loose hr)
  | expr he => exact .expr (he.loose hr)

end Relaxing

theorem Rules.level_relaxing : ∀ n, (Rules.level n).Relaxing
  | 0 => ⟨False.elim, False.elim⟩
  | n + 1 => ⟨Expr.Written.loose (level_relaxing n), Expr.ValueWritten.loose (level_relaxing n)⟩

end Script
