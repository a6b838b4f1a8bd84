import Script.Proofs.Complete.Statement
import Script.Proofs.Exprs
import Script.Proofs.Nodes.Statement
import Script.Tree.Heads

/-!
The brace after a head opens the body of its construct. A head is read where a brace is no value, and
whatever stands on its surface is read there too, so that no brace before the body is left for it.
-/
namespace Script

/-- No brace is met on the surface of an expression. -/
def Expr.Braceless (e : Expr) : Prop := ∀ x ∈ e.surface, x.showsBrace = false

/-- What is nested inside a construct shows no brace where a brace is the block of the construct. -/
structure Rules.Braceless (rules : Rules) : Prop where
  expr : ∀ {s min e ts}, s.brace = .expectBlock → rules.expr s min e ts → e.Braceless
  value : ∀ {s min e ts}, s.brace = .expectBlock → rules.value s min e ts → e.Braceless

theorem Expr.surface_eq (e : Expr) : e.surface = e :: e.kind.surface := by
  obtain ⟨kind, span⟩ := e
  rfl

theorem Expr.braceless_iff {e : Expr} :
    e.Braceless ↔ e.showsBrace = false ∧ ∀ x ∈ e.kind.surface, x.showsBrace = false := by
  rw [Braceless, surface_eq, List.forall_mem_cons]

theorem ElseIf.forall_surfaceEach {Q : Expr → Prop} {es : List ElseIf} :
    (∀ x ∈ ElseIf.surfaceEach es, Q x) ↔ ∀ e ∈ es, ∀ x ∈ e.condition.surface, Q x := by
  induction es with
  | nil => simp [ElseIf.surfaceEach]
  | cons e es ih =>
    obtain ⟨condition, body, span⟩ := e
    rw [ElseIf.surfaceEach, List.forall_mem_append, List.forall_mem_cons, ih, ElseIf.surface]

theorem VarDecl.forall_surfaceEach {Q : Expr → Prop} {ds : List VarDecl} :
    (∀ x ∈ VarDecl.surfaceEach ds, Q x) ↔ ∀ d ∈ ds, ∀ x ∈ d.value.surface, Q x := by
  induction ds with
  | nil => simp [VarDecl.surfaceEach]
  | cons d ds ih =>
    obtain ⟨binding, name, type, value, span⟩ := d
    rw [VarDecl.surfaceEach, List.forall_mem_append, List.forall_mem_cons, ih, VarDecl.surface]

variable {rules : Rules} {s : Surroundings} {min : Strength} {ts : List Token}

namespace Rules.Braceless

variable (hr : rules.Braceless)
include hr

theorem operand {e : Expr} (hs : s.brace = .expectBlock) (h : e.OperandWritten rules s ts) :
    e.Braceless := by
  rw [Expr.braceless_iff]
  cases h with
  | unary _ ho => exact ⟨rfl, hr.expr hs ho⟩
  | word => exact ⟨rfl, nofun⟩
  | name => exact ⟨rfl, nofun⟩
  | number => exact ⟨rfl, nofun⟩
  | string => exact ⟨rfl, nofun⟩
  | group => exact ⟨rfl, nofun⟩
  | array => exact ⟨rfl, nofun⟩
  | object _ hvalue => exact absurd (hs.symm.trans hvalue) (by decide)

theorem extend {left e : Expr} {o : Operator} (hs : s.brace = .expectBlock)
    (h : Expr.Extends rules s left o ts e) (hl : left.Braceless) : e.Braceless := by
  rw [Expr.braceless_iff]
  cases h with
  | binary _ hright => exact ⟨rfl, List.forall_mem_append.2 ⟨hl, hr.expr hs hright⟩⟩
  | comparison _ hright => exact ⟨rfl, List.forall_mem_append.2 ⟨hl, hr.expr hs hright⟩⟩
  | pair _ _ hv => exact ⟨rfl, hr.value hs hv⟩
  | transition => exact ⟨rfl, nofun⟩
  | call _ _ hb =>
    cases hb with
    | none => exact ⟨rfl, hl⟩
    | some hvalue => exact absurd (hs.symm.trans hvalue) (by decide)

theorem written {e : Expr} (hs : s.brace = .expectBlock) (h : e.Written rules s min ts) :
    e.Braceless := by
  induction h with
  | operand he => exact hr.operand hs he
  | extend _ _ _ he ih => exact hr.extend hs he ih

theorem elseIfs {es : List ElseIf} (h : ElseIf.EachWritten rules s es ts) :
    ∀ e ∈ es, e.condition.Braceless := by
  induction h with
  | nil => nofun
  | cons he _ ih =>
    cases he with
    | mk _ _ hc => exact List.forall_mem_cons.2 ⟨hr.expr rfl hc, ih⟩

/-- The conditions of an `if` show no brace, wherever it stands. -/
theorem ifStmt {stmt : IfStmt} (h : stmt.Written rules s ts) :
    ∀ e ∈ stmt.heads, e.Braceless := by
  cases h with
  | mk _ hc _ hes =>
    exact List.forall_mem_cons.2 ⟨hr.expr rfl hc, List.forall_mem_map.2 (hr.elseIfs hes)⟩

theorem initDecls {ds : List VarDecl} (h : VarDecl.InitWritten rules s ds ts) :
    ∀ d ∈ ds, d.value.Braceless := by
  induction h with
  | nil => nofun
  | cons hd _ _ ih =>
    cases hd with
    | mk _ _ _ _ he => exact List.forall_mem_cons.2 ⟨hr.value rfl he, ih⟩

theorem forStmt {stmt : ForStmt} (h : stmt.Written rules s ts) :
    ∀ e ∈ stmt.head.heads, e.Braceless := by
  cases h with
  | mk _ hhead =>
    cases hhead with
    | iterate _ _ _ hi => exact List.forall_mem_singleton.2 (hr.value rfl hi)
    | indexed _ _ _ _ _ hi => exact List.forall_mem_singleton.2 (hr.value rfl hi)
    | init hd =>
      exact List.forall_mem_append.2 ⟨List.forall_mem_map.2 (hr.initDecls hd), nofun⟩
    | counted hd hc =>
      exact List.forall_mem_append.2
        ⟨List.forall_mem_map.2 (hr.initDecls hd), List.forall_mem_singleton.2 (hr.expr rfl hc)⟩

theorem patterns {cs : List WhenCase} {o : Option CaseBody}
    (h : WhenCase.EachWritten rules o cs ts) : ∀ c ∈ cs, c.pattern.Braceless := by
  have hcase : ∀ {c : WhenCase} {ts : List Token}, c.Written rules .item ts →
      c.pattern.Braceless := by
    intro c ts hc
    cases hc with
    | mk _ hp => exact hr.expr rfl hp
  induction h with
  | done => nofun
  | separated hc _ _ _ ih => exact List.forall_mem_cons.2 ⟨hcase hc, ih⟩
  | unseparated hc _ _ _ _ ih => exact List.forall_mem_cons.2 ⟨hcase hc, ih⟩

theorem whenStmt {stmt : WhenStmt} (h : stmt.Written rules s ts) :
    ∀ e ∈ stmt.heads, e.Braceless := by
  cases h with
  | mk _ hi hs _ hc =>
    exact List.forall_mem_append.2 ⟨List.forall_mem_map.2 (hr.initDecls hi),
      List.forall_mem_cons.2 ⟨hr.expr rfl hs, List.forall_mem_map.2 (hr.patterns hc)⟩⟩

/-- The surface of an `if` is that of its conditions. -/
theorem ifSurface {stmt : IfStmt} (h : stmt.Written rules s ts) :
    ∀ x ∈ stmt.surface, x.showsBrace = false := by
  have hheads := hr.ifStmt h
  obtain ⟨condition, body, elseIfs, elseBody, span⟩ := stmt
  rw [IfStmt.heads, List.forall_mem_cons, List.forall_mem_map] at hheads
  rw [IfStmt.surface, List.forall_mem_append, ElseIf.forall_surfaceEach]
  exact hheads

/-- The surface of a `when` is that of its head before the braces. -/
theorem whenSurface {stmt : WhenStmt} (h : stmt.Written rules s ts) :
    ∀ x ∈ stmt.surface, x.showsBrace = false := by
  have hheads := hr.whenStmt h
  obtain ⟨init, subject, cases, elseBody, span⟩ := stmt
  rw [WhenStmt.heads, List.forall_mem_append, List.forall_mem_map, List.forall_mem_cons] at hheads
  rw [WhenStmt.surface, List.forall_mem_append, VarDecl.forall_surfaceEach]
  exact ⟨hheads.1, hheads.2.1⟩

theorem valueWritten {e : Expr} (hs : s.brace = .expectBlock) (h : e.ValueWritten rules s min ts) :
    e.Braceless := by
  cases h with
  | ifExpr hstmt => exact Expr.braceless_iff.2 ⟨rfl, hr.ifSurface hstmt⟩
  | whenExpr hstmt => exact Expr.braceless_iff.2 ⟨rfl, hr.whenSurface hstmt⟩
  | expr he => exact hr.written hs he

end Rules.Braceless

theorem Rules.level_braceless : ∀ n, (Rules.level n).Braceless
  | 0 => ⟨fun _ h => False.elim h, fun _ h => False.elim h⟩
  | n + 1 => ⟨fun hs h => (level_braceless n).written hs h,
      fun hs h => (level_braceless n).valueWritten hs h⟩

/-- The heads of an expression that is written show no brace. -/
theorem Expr.ValueWritten.heads {n : Nat} {e : Expr}
    (h : e.ValueWritten (Rules.level n) s min ts) : ∀ x ∈ e.heads, x.Braceless := by
  have hr := Rules.level_braceless n
  cases h with
  | ifExpr hstmt => exact hr.ifStmt hstmt
  | whenExpr hstmt => exact hr.whenStmt hstmt
  | expr he =>
    cases he with
    | operand he => cases he <;> nofun
    | extend _ _ _ he => cases he <;> nofun

theorem Statement.EntryWritten.heads {n : Nat} {st : Statement}
    (h : st.EntryWritten (Rules.level n) s ts) : ∀ x ∈ st.heads, x.Braceless := by
  cases h with
  | ifStmt hstmt => exact (Rules.level_braceless n).ifStmt hstmt
  | pair => nofun

theorem Statement.Written.heads {n : Nat} {st : Statement}
    (h : st.Written (Rules.level n) s ts) : ∀ x ∈ st.heads, x.Braceless := by
  have hr := Rules.level_braceless n
  obtain ⟨hk⟩ := h
  cases hk with
  | ifStmt hstmt => exact hr.ifStmt hstmt
  | forStmt hstmt => exact hr.forStmt hstmt
  | whenStmt hstmt => exact hr.whenStmt hstmt
  | _ => nofun

/-- In a program that is read, the brace after a head always opens the body. Take any condition of an
`if`, `else if` or `for`, any value at the front of a `for` or `when`, and what is iterated,
examined or matched: no object and no call with a block is on its surface. -/
theorem Program.parse_heads {source : String} {p : Program} (h : parse source = .ok p) :
    ∀ e ∈ p.heads, ∀ x ∈ e.surface, x.showsBrace = false := by
  obtain ⟨ts, last, -, hp⟩ := Program.parse_iff.1 h
  have hnodes := hp.nodes hereditary_any trivial
  have hexprs := hp.exprs Expr.ValueWritten.heads
  rw [Program.heads, List.forall_mem_append]
  refine ⟨fun e he => ?_, fun e he => ?_⟩
  · obtain ⟨node, hnode, he⟩ := List.mem_flatMap.1 he
    have hwritten := hnodes node hnode
    cases node with
    | statement st =>
      obtain ⟨n, us, -, hw | hw⟩ := hwritten
      · exact hw.heads e he
      · exact hw.heads e he
    | _ => cases he
  · obtain ⟨x, hx, he⟩ := List.mem_flatMap.1 he
    exact hexprs x hx e he

/-- A loop whose first value is an `if` with an `else if`, around a `when` with one case. -/
theorem Program.parse_heads_nested :
    ∃ p, parse ("for let k = if a(b) \x7b 1 \x7d else if !c \x7b 2 \x7d; k < -n " ++
        "\x7b when x \x7b is p: q \x7b f(x) \x7b \x7d \x7d \x7d \x7d") = .ok p ∧
      p.heads.length = 6 ∧ ∀ e ∈ p.heads, ∀ x ∈ e.surface, x.showsBrace = false := by
  have hcount : (parse ("for let k = if a(b) \x7b 1 \x7d else if !c \x7b 2 \x7d; k < -n " ++
      "\x7b when x \x7b is p: q \x7b f(x) \x7b \x7d \x7d \x7d \x7d")).toOption.map
        (·.heads.length) = some 6 := by decide +kernel
  obtain ⟨p, hp, hlength⟩ := Option.map_eq_some_iff.1 hcount
  have hparse := eq_ok_of_toOption hp
  exact ⟨p, hparse, hlength, parse_heads hparse⟩

end Script
