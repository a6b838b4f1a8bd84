import Script.Proofs.Renamed.Control

/-!
Declarations and statements with an identifier spelled anew.
-/
namespace Script

variable {r : Renaming} {rules : Rules} {s : Surroundings} {ts : List Token}

section Declarations

theorem Name.MoreWritten.rename {ns : List Name} (h : Name.MoreWritten ns ts) :
    Name.MoreWritten (ns.map (Name.mapIdents r.ident)) (r.tokens ts) := by
  induction h with
  | nil => exact .nil
  | cons ht hn _ ih =>
    simp only [r.tokens_cons, r.tokens_append]
    exact .cons ht hn.rename ih

theorem UseDecl.Written.rename {d : UseDecl} (h : d.Written ts) :
    (d.mapIdents r.ident).Written (r.tokens ts) := by
  cases h with
  | mk ht hp hs =>
    rw [UseDecl.mapIdents, ← r.spanOf_tokens]
    simp only [r.tokens_cons, r.tokens_append]
    refine .mk (r.keyword? ht) hp.rename ?_
    cases hs with
    | nil => exact .nil
    | cons hc hn hns =>
      simp only [r.tokens_cons, r.tokens_append]
      exact .cons hc hn.rename hns.rename

theorem Param.Written.rename {p : Param} (h : p.Written ts) :
    (p.mapIdents r.ident).Written (r.tokens ts) := by
  cases h with
  | mk hn ht =>
    rw [Param.mapIdents, ← r.spanOf_tokens]
    exact .mk hn.rename ht.rename

theorem Property.Written.rename {p : Property} (h : p.Written ts) :
    (p.mapIdents r.ident).Written (r.tokens ts) := by
  cases h with
  | mk hn ht =>
    rw [Property.mapIdents, ← r.spanOf_tokens, r.tokens_append]
    exact .mk hn.rename ht.rename

theorem FieldDecl.Written.rename {d : FieldDecl} (h : d.Written ts) :
    (d.mapIdents r.ident).Written (r.tokens ts) := by
  cases h with
  | mk hn hu ht =>
    rw [FieldDecl.mapIdents, ← r.spanOf_tokens]
    exact .mk hn.rename hu ht.rename

theorem TypeDecl.Written.rename {d : TypeDecl} (h : d.Written ts) :
    (d.mapIdents r.ident).Written (r.tokens ts) := by
  cases h with
  | mk ht hn hv hf =>
    rw [TypeDecl.mapIdents, ← r.spanOf_tokens]
    exact .mk (r.keyword? ht) hn.rename hv (hf.rename (fun _ _ h => h.rename)
      fun d us h => d.type.endsBefore_mapIdents.2 ((r.alike us).fieldDecl h))

theorem Parser.isPair_mapIdents (f : Ident → Ident) (e : Expr) :
    Parser.isPair (e.mapIdents f) = Parser.isPair e := by
  obtain ⟨kind, span⟩ := e
  cases kind <;> rfl

variable (hr : rules.Renames r)
include hr

theorem ImportDecl.Written.rename {d : ImportDecl} (h : d.Written rules ts) :
    (d.mapIdents r.ident).Written rules (r.tokens ts) := by
  cases h with
  | plain ht hp =>
    rw [ImportDecl.mapIdents, ← r.spanOf_tokens]
    exact .plain (r.keyword? ht) hp.rename
  | call ht hp hu ha =>
    rw [ImportDecl.mapIdents, ← r.spanOf_tokens]
    simp only [r.tokens_cons, r.tokens_append]
    exact .call (r.keyword? ht) hp.rename hu (Expr.rename_arguments hr ha)

theorem FnBody.Written.rename {body : FnBody} (h : body.Written rules s ts) :
    (body.mapIdents r.ident).Written rules s (r.tokens ts) := by
  cases h with
  | expr ht he => exact .expr ht (hr.expr he)
  | block hb => exact .block (hb.rename hr)

theorem FnDecl.Written.rename {d : FnDecl} (h : d.Written rules s ts) :
    (d.mapIdents r.ident).Written rules s (r.tokens ts) := by
  cases h with
  | mk ht hn hu hp hres hb =>
    have hparams := hp.rename (r := r) (fun _ _ h => h.rename)
      fun p us h => p.endsBefore_mapIdents.2 ((r.alike us).param h)
    rw [FnDecl.mapIdents, ← r.spanOf_tokens]
    simp only [r.tokens_cons, r.tokens_append]
    exact .mk (r.keyword? ht) hn.rename hu hparams hres.rename (hb.rename hr)

theorem Statement.EntryWritten.rename {st : Statement} (h : st.EntryWritten rules s ts) :
    (st.mapIdents r.ident).EntryWritten rules s (r.tokens ts) := by
  cases h with
  | ifStmt hs =>
    simp only [Statement.mapIdents, StatementKind.mapIdents]
    rw [← r.spanOf_tokens]
    exact .ifStmt (hs.rename hr)
  | @pair e _ he hp =>
    simp only [Statement.mapIdents, StatementKind.mapIdents]
    rw [← e.mapIdents_span r.ident]
    exact .pair (hr.expr he) ((Parser.isPair_mapIdents _ _).trans hp)

theorem NodeDecl.Written.rename {d : NodeDecl} (h : d.Written rules ts) :
    (d.mapIdents r.ident).Written rules (r.tokens ts) := by
  cases h with
  | mk ht hn hu hp hb =>
    have hprops := hp.rename (r := r) (fun _ _ h => h.rename)
      fun p us h => p.endsBefore_mapIdents.2 ((r.alike us).property h)
    cases hb with
    | none =>
      rw [NodeDecl.mapIdents, ← r.spanOf_tokens]
      simp only [r.tokens_cons, r.tokens_append]
      exact .mk (r.keyword? ht) hn.rename hu hprops .none
    | some hv he =>
      have hentries := he.rename (r := r) (fun _ _ h => h.rename hr)
        fun st us h => st.entryEndsBefore_mapIdents.2 ((r.alike us).entry h)
      rw [NodeDecl.mapIdents, ← r.spanOf_tokens, Statement.mapIdentsEach_eq]
      simp only [r.tokens_cons, r.tokens_append]
      exact .mk (r.keyword? ht) hn.rename hu hprops (.some hv hentries)

theorem EnumMember.Written.rename {m : EnumMember} (h : m.Written rules s ts) :
    (m.mapIdents r.ident).Written rules s (r.tokens ts) := by
  cases h with
  | plain hn =>
    rw [EnumMember.mapIdents, ← r.spanOf_tokens]
    exact .plain hn.rename
  | assigned hn hu hv =>
    rw [EnumMember.mapIdents, ← r.spanOf_tokens]
    exact .assigned hn.rename hu (hr.expr hv)

theorem EnumDecl.Written.rename {d : EnumDecl} (h : d.Written rules ts) :
    (d.mapIdents r.ident).Written rules (r.tokens ts) := by
  cases h with
  | mk ht hn hv hm =>
    rw [EnumDecl.mapIdents, ← r.spanOf_tokens, EnumMember.mapIdentsEach_eq]
    exact .mk (r.keyword? ht) hn.rename hv (hm.rename (fun _ _ h => h.rename hr)
      fun m us h => m.endsBefore_mapIdents.2 ((r.alike us).enumMember h))

end Declarations

theorem Continues.rename_tail {kind : TokenKind} (h : Continues kind ts.tail) :
    Continues kind (r.tokens ts).tail := by
  rw [Renaming.tokens, ← List.map_tail]
  exact h.rename

theorem StatementKind.Written.rename (hr : rules.Renames r) {k : StatementKind}
    (h : k.Written rules s ts) : (k.mapIdents r.ident).Written rules s (r.tokens ts) := by
  cases h with
  | modDecl ht hl hn hb =>
    rw [r.tokens_cons, r.tokens_append]
    exact .modDecl (r.keyword? ht) hl.rename hn.rename (hb.rename hr)
  | useDecl hd hl => exact .useDecl hd.rename hl.rename_tail
  | importDecl hd hl => exact .importDecl (hd.rename hr) hl.rename_tail
  | varDecl hd => exact .varDecl (hd.rename hr)
  | fnDecl hd => exact .fnDecl (hd.rename hr)
  | nodeDecl hd hl => exact .nodeDecl (hd.rename hr) hl.rename_tail
  | assign hn ht hv =>
    rw [r.tokens_append, r.tokens_cons]
    exact .assign hn.rename ht (hr.value hv)
  | ifStmt hs => exact .ifStmt (hs.rename hr)
  | forStmt hs => exact .forStmt (hs.rename hr)
  | whenStmt hs => exact .whenStmt (hs.rename hr)
  | uiBlock ht hl hb => exact .uiBlock (r.keyword? ht) hl.rename (hb.rename hr)
  | styleBlock ht hl hb => exact .styleBlock (r.keyword? ht) hl.rename (hb.rename hr)
  | typeDecl hd hl => exact .typeDecl hd.rename hl.rename_tail
  | enumDecl hd hl => exact .enumDecl (hd.rename hr) hl.rename_tail
  | breakStmt ht => exact .breakStmt (r.keyword? ht)
  | expr he => exact .expr (he.rename hr)

theorem Statement.Written.rename (hr : rules.Renames r) {st : Statement}
    (h : st.Written rules s ts) : (st.mapIdents r.ident).Written rules s (r.tokens ts) := by
  cases h with
  | mk hk =>
    rw [Statement.mapIdents, ← r.spanOf_tokens]
    exact .mk (hk.rename hr)

/-- What is written at one level is written there again when an identifier is spelled anew. -/
theorem Rules.level_renames (r : Renaming) : ∀ n, (Rules.level n).Renames r
  | 0 => ⟨False.elim, False.elim, False.elim⟩
  | n + 1 =>
    have hr := Rules.level_renames r n
    ⟨fun h => h.rename hr, fun h => h.rename hr, fun h => h.rename hr⟩

theorem Program.Written.rename {p : Program} (h : p.Written ts) :
    (p.mapIdents r.ident).Written (r.tokens ts) := by
  obtain ⟨n, hs⟩ := h.statements
  refine ⟨⟨n, ?_⟩, ?_⟩
  · rw [Program.mapIdents, Statement.mapIdentsEach_eq]
    exact hs.rename (fun _ _ => (Rules.level_renames r n).statement)
      fun st us h => st.endsBefore_mapIdents.2 ((r.alike us).statement h)
  · rw [r.lastStop_tokens, r.firstStart_tokens]
    exact h.span

end Script
