import Script.Proofs.Nodes.Expression
import Script.Rules.Statement
import Script.Tree.Exprs

/-!
The expressions of a tree are written where values stand, whatever holds them. So what is true of all
expressions that are written is true of all expressions of a program.
-/
namespace Script

/-- The expressions of what is nested inside a construct have a property. -/
structure Rules.Exprs (Q : Expr → Prop) (rules : Rules) : Prop where
  expr : ∀ {s min e ts}, rules.expr s min e ts → ∀ x ∈ e.exprs, Q x
  value : ∀ {s min e ts}, rules.value s min e ts → ∀ x ∈ e.exprs, Q x
  statement : ∀ {s st ts}, rules.statement s st ts → ∀ x ∈ st.exprs, Q x

variable {Q : Expr → Prop} {n : Nat} {s : Surroundings} {min : Strength} {ts : List Token}

theorem hereditary_any : Hereditary fun _ => True := ⟨fun _ => trivial, fun _ _ _ _ _ _ => trivial⟩

/-- The items of a list are written. -/
theorem ListWritten.items {α : Type} {separators : List TokenKind} {close : TokenKind}
    {written : α → List Token → Prop} {ends : List Token → α → Prop} {as : List α}
    (h : ListWritten separators close written ends as ts) : ∀ a ∈ as, ∃ us, written a us := by
  intro a ha
  obtain ⟨us, hw, -⟩ := h.parts hereditary_any trivial a ha
  exact ⟨us, hw⟩

theorem Expr.forall_exprsEach {es : List Expr} :
    (∀ x ∈ Expr.exprsEach es, Q x) ↔ ∀ e ∈ es, ∀ x ∈ e.exprs, Q x := by
  induction es with
  | nil => simp [Expr.exprsEach]
  | cons e es ih => rw [Expr.exprsEach, List.forall_mem_append, List.forall_mem_cons, ih]

theorem Statement.forall_exprsEach {ss : List Statement} :
    (∀ x ∈ Statement.exprsEach ss, Q x) ↔ ∀ s ∈ ss, ∀ x ∈ s.exprs, Q x := by
  induction ss with
  | nil => simp [Statement.exprsEach]
  | cons s ss ih => rw [Statement.exprsEach, List.forall_mem_append, List.forall_mem_cons, ih]

theorem EnumMember.forall_exprsEach {ms : List EnumMember} :
    (∀ x ∈ EnumMember.exprsEach ms, Q x) ↔ ∀ m ∈ ms, ∀ x ∈ m.exprs, Q x := by
  induction ms with
  | nil => simp [EnumMember.exprsEach]
  | cons m ms ih => rw [EnumMember.exprsEach, List.forall_mem_append, List.forall_mem_cons, ih]

theorem Expr.exprs_eq (e : Expr) : e.exprs = e :: e.kind.exprs := by
  obtain ⟨kind, span⟩ := e
  rfl

/-- A key holds the expressions inside the one that it was read as. -/
theorem PairKey.exprs_eq {e : Expr} {key : PairKey} (h : Parser.pairKey? e = some key) :
    key.exprs = e.kind.exprs := by
  unfold Parser.pairKey? at h
  split at h
  · rename_i hk
    obtain rfl := Option.some.inj h
    rw [hk]
    rfl
  · rename_i hk
    split at h
    · cases h
    · obtain rfl := Option.some.inj h
      rw [hk]
      rfl
  · cases h

namespace Rules.Exprs

section Expressions

variable {rules : Rules} (hr : rules.Exprs Q)
include hr

theorem exprs {es : List Expr} {ends : List Token → Expr → Prop}
    {separators : List TokenKind} {close : TokenKind}
    (h : ListWritten separators close (rules.expr s min) ends es ts) :
    ∀ x ∈ Expr.exprsEach es, Q x := by
  rw [Expr.forall_exprsEach]
  intro e he
  obtain ⟨us, hw⟩ := h.items e he
  exact hr.expr hw

theorem statements {ss : List Statement} {ends : List Token → Statement → Prop}
    {separators : List TokenKind} {close : TokenKind}
    (h : ListWritten separators close (rules.statement s) ends ss ts) :
    ∀ x ∈ Statement.exprsEach ss, Q x := by
  rw [Statement.forall_exprsEach]
  intro st hst
  obtain ⟨us, hw⟩ := h.items st hst
  exact hr.statement hw

theorem block {body : Block} (h : body.Written rules ts) : ∀ x ∈ body.exprs, Q x := by
  cases h with
  | mk _ hs => exact hr.statements hs

theorem parts {xs : List Piece} {ps : List StringPart} (h : StringPart.EachWritten rules xs ps) :
    ∀ x ∈ StringPart.exprsEach ps, Q x := by
  induction h with
  | nil => nofun
  | cons hpart _ ih =>
    rw [StringPart.exprsEach, List.forall_mem_append]
    refine ⟨?_, ih⟩
    cases hpart with
    | text => nofun
    | nameHole => nofun
    | exprHole _ _ he => exact hr.value he

theorem operand {e : Expr} (h : e.OperandWritten rules s ts) : ∀ x ∈ e.kind.exprs, Q x := by
  cases h with
  | unary _ ho => exact hr.expr ho
  | @word _ word _ _ hl => cases word <;> cases hl <;> nofun
  | name => nofun
  | number => nofun
  | string _ hl =>
    cases hl with
    | mk _ hp => exact hr.parts hp
  | group _ hi => exact hr.expr hi
  | array _ hi =>
    rw [ExprKind.exprs, Expr.forall_exprsEach]
    intro e he
    obtain ⟨us, hw⟩ := hi.items e he
    exact hr.value hw
  | object _ _ he => exact hr.statements he

theorem extend {left e : Expr} {o : Operator} (h : Expr.Extends rules s left o ts e)
    (hl : ∀ x ∈ left.exprs, Q x) : ∀ x ∈ e.kind.exprs, Q x := by
  cases h with
  | binary _ hright =>
    rw [ExprKind.exprs, List.forall_mem_append]
    exact ⟨hl, hr.expr hright⟩
  | comparison _ hright =>
    rw [ExprKind.exprs, List.forall_mem_append]
    exact ⟨hl, hr.expr hright⟩
  | pair _ hk hv =>
    rw [Expr.exprs_eq, List.forall_mem_cons] at hl
    rw [ExprKind.exprs, List.forall_mem_append, PairKey.exprs_eq hk]
    exact ⟨hl.2, hr.value hv⟩
  | transition => nofun
  | call _ ha hb =>
    rw [ExprKind.exprs, List.forall_mem_append, List.forall_mem_append]
    refine ⟨⟨hl, hr.exprs ha⟩, ?_⟩
    cases hb with
    | none => nofun
    | some _ _ hb => exact hr.block hb

end Expressions

section Control

variable {rules : Rules} (hr : rules.Exprs Q)
include hr

theorem elseIfs {es : List ElseIf} (h : ElseIf.EachWritten rules s es ts) :
    ∀ x ∈ ElseIf.exprsEach es, Q x := by
  induction h with
  | nil => nofun
  | cons he _ ih =>
    rw [ElseIf.exprsEach, List.forall_mem_append]
    refine ⟨?_, ih⟩
    cases he with
    | mk _ _ hc hb =>
      rw [ElseIf.exprs, List.forall_mem_append]
      exact ⟨hr.expr hc, hr.block hb⟩

theorem ifStmt {stmt : IfStmt} (h : stmt.Written rules s ts) : ∀ x ∈ stmt.exprs, Q x := by
  cases h with
  | mk _ hc hb hes hl =>
    simp only [IfStmt.exprs, List.forall_mem_append]
    refine ⟨⟨⟨hr.expr hc, hr.block hb⟩, hr.elseIfs hes⟩, ?_⟩
    cases hl with
    | none => nofun
    | some _ hb => exact hr.block hb

theorem varDecl {d : VarDecl} (h : d.Written rules s ts) : ∀ x ∈ d.exprs, Q x := by
  cases h with
  | mk _ _ _ _ he => exact hr.value he

theorem initDecls {ds : List VarDecl} (h : VarDecl.InitWritten rules s ds ts) :
    ∀ x ∈ VarDecl.exprsEach ds, Q x := by
  induction h with
  | nil => nofun
  | cons hd _ _ ih =>
    rw [VarDecl.exprsEach, List.forall_mem_append]
    exact ⟨hr.varDecl hd, ih⟩

theorem forStmt {stmt : ForStmt} (h : stmt.Written rules s ts) : ∀ x ∈ stmt.exprs, Q x := by
  cases h with
  | mk _ hhead hb =>
    rw [ForStmt.exprs, List.forall_mem_append]
    refine ⟨?_, hr.block hb⟩
    cases hhead with
    | iterate _ _ _ hi => exact hr.value hi
    | indexed _ _ _ _ _ hi => exact hr.value hi
    | init hd =>
      simp only [ForHead.exprs, Expr.exprsOption, List.append_nil]
      exact hr.initDecls hd
    | counted hd hc =>
      rw [ForHead.exprs, List.forall_mem_append]
      exact ⟨hr.initDecls hd, hr.expr hc⟩

theorem caseBody {body : CaseBody} (h : body.Written rules s ts) : ∀ x ∈ body.exprs, Q x := by
  cases h with
  | arrow _ hs => exact hr.statement hs
  | block hb => exact hr.block hb

theorem whenCases {cs : List WhenCase} {o : Option CaseBody}
    (h : WhenCase.EachWritten rules o cs ts) :
    (∀ x ∈ WhenCase.exprsEach cs, Q x) ∧ ∀ x ∈ CaseBody.exprsOption o, Q x := by
  have hcase : ∀ {c : WhenCase} {ts : List Token}, c.Written rules .item ts →
      ∀ x ∈ c.exprs, Q x := by
    intro c ts hc
    cases hc with
    | mk _ hpattern _ hb =>
      rw [WhenCase.exprs, List.forall_mem_append]
      exact ⟨hr.expr hpattern, hr.caseBody hb⟩
  induction h with
  | done hl =>
    refine ⟨nofun, ?_⟩
    cases hl with
    | none => nofun
    | some _ hb => exact hr.caseBody hb
    | separated _ hb => exact hr.caseBody hb
  | separated hc _ _ _ ih =>
    rw [WhenCase.exprsEach, List.forall_mem_append]
    exact ⟨⟨hcase hc, ih.1⟩, ih.2⟩
  | unseparated hc _ _ _ _ ih =>
    rw [WhenCase.exprsEach, List.forall_mem_append]
    exact ⟨⟨hcase hc, ih.1⟩, ih.2⟩

theorem whenStmt {stmt : WhenStmt} (h : stmt.Written rules s ts) : ∀ x ∈ stmt.exprs, Q x := by
  cases h with
  | mk _ hi hs _ hc =>
    obtain ⟨hcases, helse⟩ := hr.whenCases hc
    simp only [WhenStmt.exprs, List.forall_mem_append]
    exact ⟨⟨⟨hr.initDecls hi, hr.expr hs⟩, hcases⟩, helse⟩

end Control

section Declarations

variable (hr : (Rules.level n).Exprs Q)
include hr

theorem fnDecl {d : FnDecl} (h : d.Written (Rules.level n) s ts) : ∀ x ∈ d.exprs, Q x := by
  cases h with
  | mk _ _ _ _ _ hb =>
    cases hb with
    | expr _ he => exact hr.expr he
    | block hb => exact hr.block hb

theorem nodeDecl {d : NodeDecl} (h : d.Written (Rules.level n) ts) : ∀ x ∈ d.exprs, Q x := by
  cases h with
  | mk _ _ _ _ hb =>
    cases hb with
    | none => nofun
    | some _ he =>
      rw [NodeDecl.exprs, Statement.forall_exprsEach]
      intro st hst
      obtain ⟨us, hw⟩ := he.items st hst
      cases hw with
      | ifStmt hs => exact hr.ifStmt hs
      | pair he => exact hr.expr he

theorem enumDecl {d : EnumDecl} (h : d.Written (Rules.level n) ts) : ∀ x ∈ d.exprs, Q x := by
  cases h with
  | mk _ _ _ hm =>
    rw [EnumDecl.exprs, EnumMember.forall_exprsEach]
    intro m hmem
    obtain ⟨us, hw⟩ := hm.items m hmem
    cases hw with
    | plain => nofun
    | assigned _ _ hv => exact hr.expr hv

end Declarations

section Level

variable (hQ : ∀ {n s min e ts}, Expr.ValueWritten (Rules.level n) s min e ts → Q e)
  (hr : (Rules.level n).Exprs Q)
include hQ hr

theorem written {e : Expr} (h : e.Written (Rules.level n) s min ts) : ∀ x ∈ e.exprs, Q x := by
  have hself : ∀ {e ts}, Expr.Written (Rules.level n) s min e ts → Q e := fun h => hQ (.expr h)
  induction h with
  | operand he =>
    rw [Expr.exprs_eq, List.forall_mem_cons]
    exact ⟨hself (.operand he), hr.operand he⟩
  | extend hl hle ho he ih =>
    rw [Expr.exprs_eq, List.forall_mem_cons]
    exact ⟨hself (.extend hl hle ho he), hr.extend he ih⟩

theorem valueWritten {e : Expr} (h : e.ValueWritten (Rules.level n) s min ts) :
    ∀ x ∈ e.exprs, Q x := by
  rw [Expr.exprs_eq, List.forall_mem_cons]
  refine ⟨hQ h, ?_⟩
  cases h with
  | ifExpr hs => exact hr.ifStmt hs
  | whenExpr hs => exact hr.whenStmt hs
  | expr he =>
    have hall := hr.written hQ he
    rw [Expr.exprs_eq, List.forall_mem_cons] at hall
    exact hall.2

theorem statementKind {k : StatementKind} (h : k.Written (Rules.level n) s ts) :
    ∀ x ∈ k.exprs, Q x := by
  cases h with
  | modDecl _ _ _ hb => exact hr.block hb
  | useDecl => nofun
  | importDecl hd =>
    cases hd with
    | plain => nofun
    | call _ _ _ ha => exact hr.exprs ha
  | varDecl hd => exact hr.varDecl hd
  | fnDecl hd => exact hr.fnDecl hd
  | nodeDecl hd => exact hr.nodeDecl hd
  | assign _ _ hv => exact hr.value hv
  | ifStmt hs => exact hr.ifStmt hs
  | forStmt hs => exact hr.forStmt hs
  | whenStmt hs => exact hr.whenStmt hs
  | uiBlock _ _ hb => exact hr.block hb
  | styleBlock _ _ hb => exact hr.block hb
  | typeDecl => nofun
  | enumDecl hd => exact hr.enumDecl hd
  | breakStmt => nofun
  | expr he => exact hr.written hQ he

theorem step : (Rules.level (n + 1)).Exprs Q where
  expr h := hr.written hQ h
  value h := hr.valueWritten hQ h
  statement h := by
    cases h with
    | mk hk => exact hr.statementKind hQ hk

end Level

end Rules.Exprs

theorem Rules.level_exprs (hQ : ∀ {n s min e ts}, Expr.ValueWritten (Rules.level n) s min e ts → Q e) :
    ∀ n, (Rules.level n).Exprs Q
  | 0 => ⟨fun h => False.elim h, fun h => False.elim h, fun h => False.elim h⟩
  | n + 1 => (level_exprs hQ n).step hQ

/-- What is true of every expression that is written is true of those of a program. -/
theorem Program.Written.exprs {p : Program} (h : p.Written ts)
    (hQ : ∀ {n s min e ts}, Expr.ValueWritten (Rules.level n) s min e ts → Q e) :
    ∀ e ∈ p.exprs, Q e := by
  obtain ⟨n, hs⟩ := h.statements
  exact (Rules.level_exprs hQ n).statements hs

end Script
