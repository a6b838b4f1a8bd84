import Script.Proofs.Moved.Statement

/-!
A statement is written in the same way whether or not its first token begins a line: that token is
looked at for its kind and its text only.
-/
namespace Script

variable {b : Bool} {rules : Rules} {s : Surroundings} {min : Strength} {t : Token}
  {ts us : List Token}

namespace Token

@[simp] theorem spanOf_refront (b : Bool) (ts : List Token) : spanOf (refront b ts) = spanOf ts := by
  match ts with
  | [] => rfl
  | [t] => rfl
  | t :: u :: ts => rfl

theorem refront_append (b : Bool) (h : ts ≠ []) (us : List Token) :
    refront b (ts ++ us) = refront b ts ++ us := by
  cases ts with
  | nil => exact absurd rfl h
  | cons t ts => rfl

end Token

open Token

theorem Name.Written.refront {n : Name} (h : n.Written ts) : n.Written (Token.refront b ts) := by
  cases h with
  | absolute hi his =>
    rw [← spanOf_refront b]
    exact .absolute ⟨hi.kind, hi.eq⟩ his
  | relative hd hi his =>
    rw [← spanOf_refront b]
    exact .relative hd hi his

theorem Name.WrittenOperand.refront {n : Name} (h : n.WrittenOperand ts) :
    n.WrittenOperand (Token.refront b ts) := by
  refine ⟨h.name.refront, ?_⟩
  cases ts with
  | nil => nofun
  | cons t ts =>
    intro u hu
    obtain rfl := Option.some.inj hu
    exact h.free t rfl

theorem Expr.OperandWritten.refront {e : Expr} (h : e.OperandWritten rules s ts) :
    e.OperandWritten rules s (Token.refront b ts) := by
  cases h with
  | @unary op t ts operand ht ho =>
    exact @Expr.OperandWritten.unary rules s op { t with newlineBefore := b } ts operand ht ho
  | @word t word literal ht hl =>
    exact @Expr.OperandWritten.word rules s { t with newlineBefore := b } word literal ht hl
  | name hn => exact .name hn.refront
  | @number t kind ht =>
    exact @Expr.OperandWritten.number rules s { t with newlineBefore := b } kind ht
  | @string t literal ht hl =>
    refine @Expr.OperandWritten.string rules s { t with newlineBefore := b } literal ht ?_
    cases hl with
    | @mk _ decoded parts hd hp =>
      exact @StringLiteral.Written.mk rules { t with newlineBefore := b } decoded parts hd hp
  | group ht hi hu =>
    rw [← spanOf_refront b]
    exact .group ht hi hu
  | array ht hi =>
    rw [← spanOf_refront b]
    exact .array ht hi
  | object ht hs he =>
    rw [← spanOf_refront b]
    exact .object ht hs he

theorem Expr.Written.refront {e : Expr} (h : e.Written rules s min ts) :
    e.Written rules s min (Token.refront b ts) := by
  induction h with
  | operand he => exact .operand he.refront
  | extend hl hle ho he ih =>
    rw [refront_append b hl.opens.begin.ne_nil]
    exact .extend ih hle ho he

theorem IfStmt.Written.refront {stmt : IfStmt} (h : stmt.Written rules s ts) :
    stmt.Written rules s (Token.refront b ts) := by
  cases h with
  | mk ht hc hb hes hl =>
    rw [← spanOf_refront b]
    exact .mk ht hc hb hes hl

theorem VarDecl.Written.refront {d : VarDecl} (h : d.Written rules s ts) :
    d.Written rules s (Token.refront b ts) := by
  cases h with
  | mk ht hn hy hv he =>
    rw [← spanOf_refront b]
    exact .mk ht hn hy hv he

theorem ForStmt.Written.refront {stmt : ForStmt} (h : stmt.Written rules s ts) :
    stmt.Written rules s (Token.refront b ts) := by
  cases h with
  | mk ht hh hb =>
    rw [← spanOf_refront b]
    exact .mk ht hh hb

theorem WhenStmt.Written.refront {stmt : WhenStmt} (h : stmt.Written rules s ts) :
    stmt.Written rules s (Token.refront b ts) := by
  cases h with
  | mk ht hi hs hu hc =>
    rw [← spanOf_refront b]
    exact .mk ht hi hs hu hc

theorem Expr.ValueWritten.refront {e : Expr} (h : e.ValueWritten rules s min ts) :
    e.ValueWritten rules s min (Token.refront b ts) := by
  cases h with
  | ifExpr hs =>
    rw [← spanOf_refront b]
    exact .ifExpr hs.refront
  | whenExpr hs =>
    rw [← spanOf_refront b]
    exact .whenExpr hs.refront
  | expr he => exact .expr he.refront

theorem UseDecl.Written.refront {d : UseDecl} (h : d.Written ts) :
    d.Written (Token.refront b ts) := by
  cases h with
  | mk ht hp hs =>
    rw [← spanOf_refront b]
    exact .mk ht hp hs

theorem ImportDecl.Written.refront {d : ImportDecl} (h : d.Written rules ts) :
    d.Written rules (Token.refront b ts) := by
  cases h with
  | plain ht hp =>
    rw [← spanOf_refront b]
    exact .plain ht hp
  | call ht hp hu ha =>
    rw [← spanOf_refront b]
    exact .call ht hp hu ha

theorem FnDecl.Written.refront {d : FnDecl} (h : d.Written rules s ts) :
    d.Written rules s (Token.refront b ts) := by
  cases h with
  | mk ht hn hu hp hres hb =>
    rw [← spanOf_refront b]
    exact .mk ht hn hu hp hres hb

theorem NodeDecl.Written.refront {d : NodeDecl} (h : d.Written rules ts) :
    d.Written rules (Token.refront b ts) := by
  cases h with
  | mk ht hn hu hp hb =>
    rw [← spanOf_refront b]
    exact .mk ht hn hu hp hb

theorem TypeDecl.Written.refront {d : TypeDecl} (h : d.Written ts) :
    d.Written (Token.refront b ts) := by
  cases h with
  | mk ht hn hv hf =>
    rw [← spanOf_refront b]
    exact .mk ht hn hv hf

theorem EnumDecl.Written.refront {d : EnumDecl} (h : d.Written rules ts) :
    d.Written rules (Token.refront b ts) := by
  cases h with
  | mk ht hn hv hm =>
    rw [← spanOf_refront b]
    exact .mk ht hn hv hm

theorem StatementKind.Written.refront {k : StatementKind} (h : k.Written rules s ts) :
    k.Written rules s (Token.refront b ts) := by
  have htail : ∀ ts : List Token, (Token.refront b ts).tail = ts.tail := by
    intro ts
    cases ts <;> rfl
  cases h with
  | modDecl ht hl hn hb => exact .modDecl ht hl hn hb
  | useDecl hd hl => exact .useDecl hd.refront (htail ts ▸ hl)
  | importDecl hd hl => exact .importDecl hd.refront (htail ts ▸ hl)
  | varDecl hd => exact .varDecl hd.refront
  | fnDecl hd => exact .fnDecl hd.refront
  | nodeDecl hd hl => exact .nodeDecl hd.refront (htail ts ▸ hl)
  | assign hn ht hv =>
    rw [refront_append b hn.name.ne_nil]
    exact .assign hn.refront ht hv
  | ifStmt hs => exact .ifStmt hs.refront
  | forStmt hs => exact .forStmt hs.refront
  | whenStmt hs => exact .whenStmt hs.refront
  | uiBlock ht hl hb => exact .uiBlock ht hl hb
  | styleBlock ht hl hb => exact .styleBlock ht hl hb
  | typeDecl hd hl => exact .typeDecl hd.refront (htail ts ▸ hl)
  | enumDecl hd hl => exact .enumDecl hd.refront (htail ts ▸ hl)
  | breakStmt ht => exact .breakStmt ht
  | expr he => exact .expr he.refront

theorem Statement.Written.refront {st : Statement} (h : st.Written rules s ts) :
    st.Written rules s (Token.refront b ts) := by
  cases h with
  | mk hk =>
    rw [← spanOf_refront b]
    exact .mk hk.refront

end Script
