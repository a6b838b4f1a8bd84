import Script.Proofs.Moved.Control

/-!
What declarations and statements are written as when their tokens are moved.
-/
namespace Script

variable {σ : Nat → Nat} {rules rules' : Rules} {s : Surroundings} {ts : List Token}

section Declarations

theorem Name.MoreWritten.move (ho : Ordered σ) {ns : List Name} (h : Name.MoreWritten ns ts)
    (hts : RigidOn σ ts) :
    Name.MoreWritten (ns.map (Name.mapSpans (Span.move σ))) (ts.map (Token.move σ)) := by
  induction h with
  | nil => exact .nil
  | cons ht hn _ ih =>
    rw [RigidOn, List.forall_mem_cons, List.forall_mem_append] at hts
    simp only [List.map_cons, List.map_append]
    exact .cons ht (hn.move ho hts.2.1) (ih hts.2.2)

theorem UseDecl.Written.move (ho : Ordered σ) {d : UseDecl} (h : d.Written ts)
    (hts : RigidOn σ ts) :
    (d.mapSpans (Span.move σ)).Written (ts.map (Token.move σ)) := by
  cases h with
  | mk ht hp hs =>
    rw [UseDecl.mapSpans, ← Token.move_spanOf ho hts (by simp)]
    simp only [RigidOn, List.forall_mem_cons, List.forall_mem_append] at hts
    simp only [List.map_cons, List.map_append]
    refine .mk ht (hp.move ho hts.2.1) ?_
    cases hs with
    | nil => exact .nil
    | cons hc hn hns =>
      simp only [List.forall_mem_cons, List.forall_mem_append] at hts
      simp only [List.map_cons, List.map_append]
      exact .cons hc (hn.move ho hts.2.2.2.1) (hns.move ho hts.2.2.2.2)

theorem ImportDecl.Written.move (hr : rules.Moving σ rules') {d : ImportDecl}
    (h : d.Written rules ts) (hts : RigidOn σ ts) :
    (d.mapSpans (Span.move σ)).Written rules' (ts.map (Token.move σ)) := by
  cases h with
  | plain ht hp =>
    rw [ImportDecl.mapSpans, ← Token.move_spanOf hr.ordered hts (by simp)]
    rw [RigidOn, List.forall_mem_cons] at hts
    exact .plain ht (hp.move hr.ordered hts.2)
  | call ht hp hu ha =>
    rw [ImportDecl.mapSpans, ← Token.move_spanOf hr.ordered hts (by simp)]
    simp only [RigidOn, List.forall_mem_cons, List.forall_mem_append] at hts
    simp only [List.map_cons, List.map_append]
    exact .call ht (hp.move hr.ordered hts.2.1) hu (Expr.move_arguments hr ha hts.2.2.2)

theorem Param.Written.move (ho : Ordered σ) {p : Param} (h : p.Written ts)
    (hts : RigidOn σ ts) : (p.mapSpans (Span.move σ)).Written (ts.map (Token.move σ)) := by
  cases h with
  | mk hn ht =>
    rw [Param.mapSpans, ← Token.move_spanOf ho hts (by simp)]
    rw [RigidOn, List.forall_mem_cons] at hts
    exact .mk (hn.move hts.1) (ht.move ho hts.2)

theorem Property.Written.move (ho : Ordered σ) {p : Property} (h : p.Written ts)
    (hts : RigidOn σ ts) : (p.mapSpans (Span.move σ)).Written (ts.map (Token.move σ)) := by
  cases h with
  | mk hn ht =>
    rw [Property.mapSpans, ← Token.move_spanOf ho hts (by simp [hn.ne_nil])]
    rw [RigidOn, List.forall_mem_append] at hts
    rw [List.map_append]
    exact .mk (hn.move ho hts.1) (ht.move ho hts.2)

theorem FnBody.Written.move (hr : rules.Moving σ rules') {body : FnBody}
    (h : body.Written rules s ts) (hts : RigidOn σ ts) :
    (body.mapSpans (Span.move σ)).Written rules' s (ts.map (Token.move σ)) := by
  cases h with
  | expr ht he =>
    rw [RigidOn, List.forall_mem_cons] at hts
    exact .expr ht (hr.expr he hts.2)
  | block hb => exact .block (hb.move hr hts)

theorem FnDecl.Written.move (hr : rules.Moving σ rules') {d : FnDecl} (h : d.Written rules s ts)
    (hts : RigidOn σ ts) :
    (d.mapSpans (Span.move σ)).Written rules' s (ts.map (Token.move σ)) := by
  cases h with
  | mk ht hn hu hp hres hb =>
    rw [FnDecl.mapSpans, ← Token.move_spanOf hr.ordered hts (by simp)]
    simp only [RigidOn, List.forall_mem_cons, List.forall_mem_append] at hts
    obtain ⟨-, hts, -, hus, hvs, hws⟩ := hts
    have hparams := hp.move hus (fun _ _ h => h.move hr.ordered)
      fun p r h => p.endsBefore_mapSpans.2 ((alike_move σ r).param h)
    simp only [List.map_cons, List.map_append]
    exact .mk ht (hn.move hr.ordered hts) hu hparams (hres.move hr.ordered hvs) (hb.move hr hws)

theorem Parser.isPair_mapSpans (f : Span → Span) (e : Expr) :
    Parser.isPair (e.mapSpans f) = Parser.isPair e := by
  obtain ⟨kind, span⟩ := e
  cases kind <;> rfl

theorem Statement.EntryWritten.move (hr : rules.Moving σ rules') {st : Statement}
    (h : st.EntryWritten rules s ts) (hts : RigidOn σ ts) :
    (st.mapSpans (Span.move σ)).EntryWritten rules' s (ts.map (Token.move σ)) := by
  cases h with
  | ifStmt hs =>
    rw [Statement.mapSpans_ifStmt, ← Token.move_spanOf hr.ordered hts hs.begin.ne_nil]
    exact .ifStmt (hs.move hr hts)
  | pair he hp =>
    rw [Statement.mapSpans_expr, ← Expr.mapSpans_span (Span.move σ)]
    exact .pair (hr.expr he hts) ((Parser.isPair_mapSpans _ _).trans hp)

theorem NodeDecl.Written.move (hr : rules.Moving σ rules') {d : NodeDecl}
    (h : d.Written rules ts) (hts : RigidOn σ ts) :
    (d.mapSpans (Span.move σ)).Written rules' (ts.map (Token.move σ)) := by
  cases h with
  | mk ht hn hu hp hb =>
    have hspan := Token.move_spanOf hr.ordered hts (by simp)
    simp only [RigidOn, List.forall_mem_cons, List.forall_mem_append] at hts
    obtain ⟨-, hts, -, hus, hvs⟩ := hts
    have hprops := hp.move hus (fun _ _ h => h.move hr.ordered)
      fun p r h => p.endsBefore_mapSpans.2 ((alike_move σ r).property h)
    cases hb with
    | none =>
      rw [NodeDecl.mapSpans, ← hspan]
      simp only [List.map_cons, List.map_append]
      exact .mk ht (hn.move hr.ordered hts) hu hprops .none
    | some hv he =>
      rw [NodeDecl.mapSpans, ← hspan, Statement.mapSpansEach_eq]
      rw [List.forall_mem_cons] at hvs
      have hentries := he.move hvs.2 (fun _ _ h => h.move hr)
        fun st r h => st.entryEndsBefore_mapSpans.2 ((alike_move σ r).entry h)
      simp only [List.map_cons, List.map_append]
      exact .mk ht (hn.move hr.ordered hts) hu hprops (.some hv hentries)

theorem FieldDecl.Written.move (ho : Ordered σ) {d : FieldDecl} (h : d.Written ts)
    (hts : RigidOn σ ts) : (d.mapSpans (Span.move σ)).Written (ts.map (Token.move σ)) := by
  cases h with
  | mk hn hu ht =>
    rw [FieldDecl.mapSpans, ← Token.move_spanOf ho hts (by simp)]
    simp only [RigidOn, List.forall_mem_cons] at hts
    exact .mk (hn.move hts.1) hu (ht.move ho hts.2.2)

theorem TypeDecl.Written.move (ho : Ordered σ) {d : TypeDecl} (h : d.Written ts)
    (hts : RigidOn σ ts) : (d.mapSpans (Span.move σ)).Written (ts.map (Token.move σ)) := by
  cases h with
  | mk ht hn hv hf =>
    rw [TypeDecl.mapSpans, ← Token.move_spanOf ho hts (by simp)]
    simp only [RigidOn, List.forall_mem_cons] at hts
    exact .mk ht (hn.move hts.2.1) hv (hf.move hts.2.2.2 (fun _ _ h => h.move ho)
      fun d r h => d.type.endsBefore_mapSpans.2 ((alike_move σ r).fieldDecl h))

theorem EnumMember.Written.move (hr : rules.Moving σ rules') {m : EnumMember}
    (h : m.Written rules s ts) (hts : RigidOn σ ts) :
    (m.mapSpans (Span.move σ)).Written rules' s (ts.map (Token.move σ)) := by
  cases h with
  | plain hn =>
    rw [EnumMember.mapSpans, ← Token.move_spanOf hr.ordered hts (by simp)]
    exact .plain (hn.move (hts _ (by simp)))
  | assigned hn hu hv =>
    rw [EnumMember.mapSpans, ← Token.move_spanOf hr.ordered hts (by simp)]
    simp only [RigidOn, List.forall_mem_cons] at hts
    exact .assigned (hn.move hts.1) hu (hr.expr hv hts.2.2)

theorem EnumDecl.Written.move (hr : rules.Moving σ rules') {d : EnumDecl}
    (h : d.Written rules ts) (hts : RigidOn σ ts) :
    (d.mapSpans (Span.move σ)).Written rules' (ts.map (Token.move σ)) := by
  cases h with
  | mk ht hn hv hm =>
    rw [EnumDecl.mapSpans, ← Token.move_spanOf hr.ordered hts (by simp),
      EnumMember.mapSpansEach_eq]
    simp only [RigidOn, List.forall_mem_cons] at hts
    exact .mk ht (hn.move hts.2.1) hv (hm.move hts.2.2.2 (fun _ _ h => h.move hr)
      fun m r h => m.endsBefore_mapSpans.2 ((alike_move σ r).enumMember h))

end Declarations

theorem Continues.move_tail {kind : TokenKind} (h : Continues kind ts.tail) :
    Continues kind (ts.map (Token.move σ)).tail := by
  rw [← List.map_tail]
  exact h.move

theorem StatementKind.Written.move (hr : rules.Moving σ rules') {k : StatementKind}
    (h : k.Written rules s ts) (hts : RigidOn σ ts) :
    (k.mapSpans (Span.move σ)).Written rules' s (ts.map (Token.move σ)) := by
  cases h with
  | modDecl ht hl hn hb =>
    rw [RigidOn, List.forall_mem_cons, List.forall_mem_append] at hts
    rw [List.map_cons, List.map_append]
    exact .modDecl ht hl.move (hn.move hr.ordered hts.2.1) (hb.move hr hts.2.2)
  | useDecl hd hl => exact .useDecl (hd.move hr.ordered hts) hl.move_tail
  | importDecl hd hl => exact .importDecl (hd.move hr hts) hl.move_tail
  | varDecl hd => exact .varDecl (hd.move hr hts)
  | fnDecl hd => exact .fnDecl (hd.move hr hts)
  | nodeDecl hd hl => exact .nodeDecl (hd.move hr hts) hl.move_tail
  | assign hn ht hv =>
    rw [RigidOn, List.forall_mem_append, List.forall_mem_cons] at hts
    rw [List.map_append, List.map_cons]
    exact .assign (hn.move hr.ordered hts.1) ht (hr.value hv hts.2.2)
  | ifStmt hs => exact .ifStmt (hs.move hr hts)
  | forStmt hs => exact .forStmt (hs.move hr hts)
  | whenStmt hs => exact .whenStmt (hs.move hr hts)
  | uiBlock ht hl hb =>
    rw [RigidOn, List.forall_mem_cons] at hts
    exact .uiBlock ht hl.move (hb.move hr hts.2)
  | styleBlock ht hl hb =>
    rw [RigidOn, List.forall_mem_cons] at hts
    exact .styleBlock ht hl.move (hb.move hr hts.2)
  | typeDecl hd hl => exact .typeDecl (hd.move hr.ordered hts) hl.move_tail
  | enumDecl hd hl => exact .enumDecl (hd.move hr hts) hl.move_tail
  | breakStmt ht => exact .breakStmt ht
  | expr he => exact .expr (he.move hr hts)

theorem Statement.Written.move (hr : rules.Moving σ rules') {st : Statement}
    (h : st.Written rules s ts) (hts : RigidOn σ ts) :
    (st.mapSpans (Span.move σ)).Written rules' s (ts.map (Token.move σ)) := by
  cases h with
  | mk hk =>
    rw [Statement.mapSpans, ← Token.move_spanOf hr.ordered hts hk.begin.ne_nil]
    exact .mk (hk.move hr hts)

/-- What is written at one level is also written at all higher ones, wherever it stands. -/
theorem Rules.level_moving (ho : Ordered σ) : ∀ {n m}, n ≤ m →
    (Rules.level n).Moving σ (Rules.level m)
  | 0, _, _ => ⟨ho, fun h => False.elim h, fun h => False.elim h, fun h => False.elim h⟩
  | _ + 1, _ + 1, h =>
    have hr := Rules.level_moving ho (Nat.le_of_succ_le_succ h)
    ⟨ho, fun h => h.move hr, fun h => h.move hr, fun h => h.move hr⟩

end Script
