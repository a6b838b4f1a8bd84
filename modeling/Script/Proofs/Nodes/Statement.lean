import Script.Proofs.Nodes.Expression

/-!
The nodes of control constructs, declarations and statements, and so of whole programs.
-/
namespace Script

variable {P : List Token → Prop} {n : Nat} {s : Surroundings} {min : Strength} {ts : List Token}

namespace Rules.Nodes

section Control

variable {rules : Rules} (hr : rules.Nodes P) (hh : Hereditary P)
include hr hh

theorem elseIfs {es : List ElseIf} (h : ElseIf.EachWritten rules s es ts) (hp : P ts) :
    ∀ x ∈ ElseIf.nodesEach es, x.WrittenIn P := by
  induction h with
  | nil => nofun
  | cons he _ ih =>
    rw [ElseIf.nodesEach, List.forall_mem_append]
    refine ⟨?_, ih (hh.right hp)⟩
    cases he with
    | mk _ _ hc hb =>
      have hp := hh.tail (hh.tail (hh.left hp))
      rw [ElseIf.nodes, List.forall_mem_append]
      exact ⟨hr.expr hc (hh.left hp), hr.block hh hb (hh.right hp)⟩

theorem elseBlock {o : Option Block} (h : Block.ElseWritten rules o ts) (hp : P ts) :
    ∀ x ∈ Block.nodesOption o, x.WrittenIn P := by
  cases h with
  | none => nofun
  | some _ hb => exact hr.block hh hb (hh.tail hp)

theorem ifStmt {stmt : IfStmt} (h : stmt.Written rules s ts) (hp : P ts) :
    ∀ x ∈ stmt.nodes, x.WrittenIn P := by
  cases h with
  | mk _ hc hb hes hl =>
    have hp := hh.tail hp
    simp only [IfStmt.nodes, List.forall_mem_append]
    exact ⟨⟨⟨hr.expr hc (hh.left hp), hr.block hh hb (hh.left (hh.right hp))⟩,
      hr.elseIfs hh hes (hh.left (hh.right (hh.right hp)))⟩,
      hr.elseBlock hh hl (hh.right (hh.right (hh.right hp)))⟩

theorem varDecl {d : VarDecl} (h : d.Written rules s ts) (hp : P ts) :
    ∀ x ∈ d.nodes, x.WrittenIn P := by
  cases h with
  | mk _ _ _ _ he =>
    rw [VarDecl.nodes]
    exact hr.value he (hh.tail (hh.right (hh.tail (hh.tail hp))))

theorem initDecls {ds : List VarDecl} (h : VarDecl.InitWritten rules s ds ts) (hp : P ts) :
    ∀ x ∈ VarDecl.nodesEach ds, x.WrittenIn P := by
  induction h with
  | nil => nofun
  | cons hd _ _ ih =>
    rw [VarDecl.nodesEach, List.forall_mem_append]
    exact ⟨hr.varDecl hh hd (hh.left hp), ih (hh.tail (hh.right hp))⟩

theorem forStmt {stmt : ForStmt} (h : stmt.Written rules s ts) (hp : P ts) :
    ∀ x ∈ stmt.nodes, x.WrittenIn P := by
  cases h with
  | mk _ hhead hb =>
    have hp := hh.tail hp
    rw [ForStmt.nodes, List.forall_mem_append]
    refine ⟨?_, hr.block hh hb (hh.right hp)⟩
    have hp := hh.left hp
    cases hhead with
    | iterate _ _ _ hi => exact hr.value hi (hh.tail (hh.tail hp))
    | indexed _ _ _ _ _ hi => exact hr.value hi (hh.tail (hh.tail (hh.tail (hh.tail hp))))
    | init hd =>
      simp only [ForHead.nodes, Expr.nodesOption, List.append_nil]
      exact hr.initDecls hh hd hp
    | counted hd hc =>
      rw [ForHead.nodes, List.forall_mem_append]
      exact ⟨hr.initDecls hh hd (hh.left hp), hr.expr hc (hh.right hp)⟩

theorem caseBody {body : CaseBody} (h : body.Written rules .item ts) (hp : P ts) :
    ∀ x ∈ body.nodes, x.WrittenIn P := by
  cases h with
  | arrow _ hs => exact hr.statement hs (hh.tail hp)
  | block hb => exact hr.block hh hb hp

theorem elseCase {o : Option CaseBody} (h : CaseBody.ElseWritten rules o ts) (hp : P ts) :
    ∀ x ∈ CaseBody.nodesOption o, x.WrittenIn P := by
  cases h with
  | none => nofun
  | some _ hb => exact hr.caseBody hh hb (hh.left (hh.tail hp))
  | separated _ hb => exact hr.caseBody hh hb (hh.left (hh.tail hp))

theorem whenCases {cs : List WhenCase} {o : Option CaseBody}
    (h : WhenCase.EachWritten rules o cs ts) (hp : P ts) :
    (∀ x ∈ WhenCase.nodesEach cs, x.WrittenIn P) ∧ ∀ x ∈ CaseBody.nodesOption o, x.WrittenIn P := by
  have hcase : ∀ {c : WhenCase} {ts : List Token}, c.Written rules .item ts → P ts →
      ∀ x ∈ c.nodes, x.WrittenIn P := by
    intro c ts hc hp
    cases hc with
    | mk _ hpattern _ hb =>
      rw [WhenCase.nodes, List.forall_mem_append]
      exact ⟨hr.expr hpattern (hh.left (hh.tail hp)), hr.caseBody hh hb (hh.right (hh.tail hp))⟩
  induction h with
  | done hl => exact ⟨nofun, hr.elseCase hh hl hp⟩
  | separated hc _ _ _ ih =>
    obtain ⟨hcs, ho⟩ := ih (hh.tail (hh.right hp))
    rw [WhenCase.nodesEach, List.forall_mem_append]
    exact ⟨⟨hcase hc (hh.left hp), hcs⟩, ho⟩
  | unseparated hc _ _ _ _ ih =>
    obtain ⟨hcs, ho⟩ := ih (hh.right hp)
    rw [WhenCase.nodesEach, List.forall_mem_append]
    exact ⟨⟨hcase hc (hh.left hp), hcs⟩, ho⟩

end Control

section Level

variable (hr : (Rules.level n).Nodes P) (hh : Hereditary P)
include hr hh

theorem whenStmt {stmt : WhenStmt} (h : stmt.Written (Rules.level n) s ts) (hp : P ts) :
    ∀ x ∈ stmt.nodes, x.WrittenIn P := by
  obtain ⟨init, subject, cases, elseBody, span⟩ := stmt
  rw [WhenStmt.nodes, List.forall_mem_cons]
  refine ⟨⟨n, s, ts, hp, h⟩, ?_⟩
  cases h with
  | mk _ hi hs _ hc =>
    have hp := hh.tail hp
    obtain ⟨hcases, helse⟩ := hr.whenCases hh hc (hh.tail (hh.right (hh.right hp)))
    simp only [List.forall_mem_append]
    exact ⟨⟨⟨hr.initDecls hh hi (hh.left hp), hr.expr hs (hh.left (hh.right hp))⟩, hcases⟩, helse⟩

theorem valueWritten {e : Expr} (h : e.ValueWritten (Rules.level n) s min ts) (hp : P ts) :
    ∀ x ∈ e.nodes, x.WrittenIn P := by
  cases h with
  | ifExpr hs => exact hr.ifStmt hh hs hp
  | whenExpr hs => exact hr.whenStmt hh hs hp
  | expr he => exact hr.written hh he hp

theorem importDecl {d : ImportDecl} (h : d.Written (Rules.level n) ts) (hp : P ts) :
    ∀ x ∈ d.nodes, x.WrittenIn P := by
  cases h with
  | plain => nofun
  | call _ _ _ ha => exact hr.exprs hh ha (hh.tail (hh.right (hh.tail hp)))

theorem fnDecl {d : FnDecl} (h : d.Written (Rules.level n) s ts) (hp : P ts) :
    ∀ x ∈ d.nodes, x.WrittenIn P := by
  cases h with
  | mk _ _ _ _ _ hb =>
    have hp := hh.right (hh.right (hh.tail (hh.right (hh.tail hp))))
    rw [FnDecl.nodes]
    cases hb with
    | expr _ he => exact hr.expr he (hh.tail hp)
    | block hb => exact hr.block hh hb hp

theorem entry {st : Statement} (h : st.EntryWritten (Rules.level n) .item ts) (hp : P ts) :
    ∀ x ∈ st.nodes, x.WrittenIn P := by
  have hself : Node.WrittenIn P (.statement st) := ⟨n, ts, hp, .inr h⟩
  cases h with
  | ifStmt hs =>
    rw [Statement.nodes, List.forall_mem_cons]
    exact ⟨hself, hr.ifStmt hh hs hp⟩
  | pair he =>
    rw [Statement.nodes, List.forall_mem_cons]
    exact ⟨hself, hr.expr he hp⟩

theorem nodeDecl {d : NodeDecl} (h : d.Written (Rules.level n) ts) (hp : P ts) :
    ∀ x ∈ d.nodes, x.WrittenIn P := by
  cases h with
  | mk _ _ _ _ hb =>
    have hp := hh.right (hh.tail (hh.right (hh.tail hp)))
    cases hb with
    | none => nofun
    | some _ he =>
      rw [NodeDecl.nodes, Statement.forall_nodesEach]
      intro st hst
      obtain ⟨us, hw, hp⟩ := he.parts hh (hh.tail hp) st hst
      exact hr.entry hh hw hp

theorem enumDecl {d : EnumDecl} (h : d.Written (Rules.level n) ts) (hp : P ts) :
    ∀ x ∈ d.nodes, x.WrittenIn P := by
  cases h with
  | mk _ _ _ hm =>
    rw [EnumDecl.nodes, EnumMember.forall_nodesEach]
    intro m hmem
    obtain ⟨us, hw, hp⟩ := hm.parts hh (hh.tail (hh.tail (hh.tail hp))) m hmem
    cases hw with
    | plain => nofun
    | assigned _ _ hv => exact hr.expr hv (hh.tail (hh.tail hp))

theorem statementKind {k : StatementKind} (h : k.Written (Rules.level n) .item ts) (hp : P ts) :
    ∀ x ∈ k.nodes, x.WrittenIn P := by
  cases h with
  | modDecl _ _ _ hb => exact hr.block hh hb (hh.right (hh.tail hp))
  | useDecl => nofun
  | importDecl hd => exact hr.importDecl hh hd hp
  | varDecl hd => exact hr.varDecl hh hd hp
  | fnDecl hd => exact hr.fnDecl hh hd hp
  | nodeDecl hd => exact hr.nodeDecl hh hd hp
  | assign _ _ hv => exact hr.value hv (hh.tail (hh.right hp))
  | ifStmt hs => exact hr.ifStmt hh hs hp
  | forStmt hs => exact hr.forStmt hh hs hp
  | whenStmt hs => exact hr.whenStmt hh hs hp
  | uiBlock _ _ hb => exact hr.block hh hb (hh.tail hp)
  | styleBlock _ _ hb => exact hr.block hh hb (hh.tail hp)
  | typeDecl => nofun
  | enumDecl hd => exact hr.enumDecl hh hd hp
  | breakStmt => nofun
  | expr he => exact hr.written hh he hp

theorem step : (Rules.level (n + 1)).Nodes P where
  level := ⟨n + 1, rfl⟩
  expr h hp := hr.written hh h hp
  value h hp := hr.valueWritten hh h hp
  statement {st ts} h hp := by
    have hself : Node.WrittenIn P (.statement st) := ⟨n, ts, hp, .inl h⟩
    cases h with
    | mk hk =>
      rw [Statement.nodes, List.forall_mem_cons]
      exact ⟨hself, hr.statementKind hh hk hp⟩

end Level

end Rules.Nodes

/-- What passes to neighbours and to holes holds of the tokens of every node. -/
theorem Rules.level_nodes (hh : Hereditary P) : ∀ n, (Rules.level n).Nodes P
  | 0 => ⟨⟨0, rfl⟩, fun h => False.elim h, fun h => False.elim h, fun h => False.elim h⟩
  | n + 1 => (level_nodes hh n).step hh

theorem Program.Written.nodes {p : Program} {t : Token} (hh : Hereditary P)
    (h : p.Written (ts ++ [t])) (hp : P ts) : ∀ x ∈ p.nodes, x.WrittenIn P := by
  obtain ⟨n, hs⟩ := h.statements
  rw [Program.nodes, Statement.forall_nodesEach]
  intro st hst
  obtain ⟨us, hw, hp⟩ := hs.parts_dropLast hh (by rwa [List.dropLast_concat]) st hst
  exact (Rules.level_nodes hh n).statement hw hp

end Script
