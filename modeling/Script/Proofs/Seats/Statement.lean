import Script.Proofs.Seats.Expression

/-!
Where the expressions in control constructs, declarations and statements stand, and so those of a
whole program.
-/
namespace Script

open Token

variable {x : Accepted} {n : Nat} {s : Surroundings} {min : Strength} {t u : Token}
  {ts us : List Token}

namespace Rules.Seated

section Control

variable {rules : Rules} (hr : rules.Seated x)
include hr

theorem elseIf {e : ElseIf} (h : e.Written rules s ts) (hseat : Seat x s ts (e.Written rules s)) :
    x.Seats e.exprs := by
  cases h with
  | @mk t u ts us condition body ht hu hc hb =>
    have hseat := (hseat.tail (plain_of_word ht)).tail (plain_of_word hu)
    refine .append (hr.expr hc (hseat.left.imp id fun vs hre hc => ?_))
      (hr.block hb ((hseat.right (hr.balancing.expr hc)).imp id fun vs hre hb => ?_))
    · rw [← (((hre.left us).cons u).cons t).spanOf]
      exact .mk ht hu hc hb
    · rw [← (((hre.right ts).cons u).cons t).spanOf]
      exact .mk ht hu hc hb

theorem elseIfs {es : List ElseIf} (h : ElseIf.EachWritten rules s es ts) :
    Seat x s ts (ElseIf.EachWritten rules s es) → x.Seats (ElseIf.exprsEach es) := by
  induction h with
  | nil => exact fun _ => .nil
  | cons he hes ih =>
    intro hseat
    refine .append (hr.elseIf he (hseat.left.imp id fun vs _ he => .cons he hes)) (ih ?_)
    exact (hseat.right (he.balanced hr.balancing)).imp id fun vs _ hes => .cons he hes

theorem elseBlock {o : Option Block} (h : Block.ElseWritten rules o ts)
    (hseat : Seat x s ts (Block.ElseWritten rules o)) : x.Seats (Block.exprsOption o) := by
  cases h with
  | none => exact .nil
  | some ht hb =>
    exact hr.block hb ((hseat.tail (plain_of_word ht)).imp id fun vs _ hb => .some ht hb)

theorem ifStmt {stmt : IfStmt} (h : stmt.Written rules s ts)
    (hseat : Seat x s ts (stmt.Written rules s)) : x.Seats stmt.exprs := by
  cases h with
  | @mk t ts us vs ws condition body elseIfs elseBody ht hc hb hes hl =>
    have hbody := (hseat.tail (plain_of_word ht)).right (hr.balancing.expr hc)
    have helse := hbody.right (hb.balanced hr.balancing)
    rw [IfStmt.exprs]
    refine .append (.append (.append (hr.expr hc ?_) (hr.block (s := s) hb ?_))
      (hr.elseIfs hes ?_)) (hr.elseBlock (s := s) hl ?_)
    · refine (hseat.tail (plain_of_word ht)).left.imp id fun r hre hc => ?_
      rw [← ((hre.left (us ++ (vs ++ ws))).cons t).spanOf]
      exact .mk ht hc hb hes hl
    · refine hbody.left.imp id fun r hre hb => ?_
      rw [← (((hre.left (vs ++ ws)).right ts).cons t).spanOf]
      exact .mk ht hc hb hes hl
    · refine helse.left.imp id fun r hre hes => ?_
      rw [← ((((hre.left ws).right us).right ts).cons t).spanOf]
      exact .mk ht hc hb hes hl
    · refine (helse.right (hes.balanced hr.balancing)).imp id fun r hre hl => ?_
      rw [← ((((hre.right vs).right us).right ts).cons t).spanOf]
      exact .mk ht hc hb hes hl

theorem varDecl {d : VarDecl} (h : d.Written rules s ts) (hseat : Seat x s ts (d.Written rules s)) :
    x.Seats d.exprs := by
  cases h with
  | @mk t u v ts us binding name type value ht hn hy hv he =>
    have hseat := (hseat.tail (plain_of_word ht)).tail (plain_of_kind hn.kind ⟨rfl, rfl⟩)
    refine hr.value he (((hseat.right hy.balanced).tail (plain_of_kind hv ⟨rfl, rfl⟩)).imp id ?_)
    intro r hre he
    rw [← ((((hre.cons v).right ts).cons u).cons t).spanOf]
    exact .mk ht hn hy hv he

theorem initDecls {ds : List VarDecl} (h : VarDecl.InitWritten rules s ds ts) :
    Seat x s ts (VarDecl.InitWritten rules s ds) → x.Seats (VarDecl.exprsEach ds) := by
  induction h with
  | nil => exact fun _ => .nil
  | cons hd ht hds ih =>
    intro hseat
    refine .append (hr.varDecl hd (hseat.left.imp id fun r _ hd => .cons hd ht hds)) (ih ?_)
    have hseat := hseat.right (hd.balanced hr.balancing)
    exact (hseat.tail (plain_of_kind ht ⟨rfl, rfl⟩)).imp id fun r _ hds => .cons hd ht hds

theorem forHead {head : ForHead} (h : head.Written rules s ts)
    (hseat : Seat x s ts (head.Written rules s)) : x.Seats head.exprs := by
  cases h with
  | iterate hn hw hu hi =>
    have hseat := (hseat.tail (plain_of_kind hn.kind ⟨rfl, rfl⟩)).tail (plain_of_word hu)
    exact hr.value hi (hseat.imp id fun r _ hi => .iterate hn hw hu hi)
  | indexed hx hw hc hn hu hi =>
    have hseat := (hseat.tail (plain_of_kind hx.kind ⟨rfl, rfl⟩)).tail (plain_of_kind hc ⟨rfl, rfl⟩)
    have hseat := (hseat.tail (plain_of_kind hn.kind ⟨rfl, rfl⟩)).tail (plain_of_word hu)
    exact hr.value hi (hseat.imp id fun r _ hi => .indexed hx hw hc hn hu hi)
  | init hd => exact .append (hr.initDecls hd (hseat.imp id fun r _ hd => .init hd)) .nil
  | counted hd hc =>
    refine .append (hr.initDecls hd (hseat.left.imp id fun r _ hd => .counted hd hc)) ?_
    have hseat := hseat.right (hd.balanced hr.balancing)
    exact hr.expr hc (hseat.imp id fun r _ hc => .counted hd hc)

theorem forStmt {stmt : ForStmt} (h : stmt.Written rules s ts)
    (hseat : Seat x s ts (stmt.Written rules s)) : x.Seats stmt.exprs := by
  cases h with
  | @mk t ts us head body ht hh hb =>
    have hseat := hseat.tail (plain_of_word ht)
    refine .append (hr.forHead hh (hseat.left.imp id fun r hre hh => ?_))
      (hr.block hb ((hseat.right (hh.balanced hr.balancing)).imp id fun r hre hb => ?_))
    · rw [← ((hre.left us).cons t).spanOf]
      exact .mk ht hh hb
    · rw [← ((hre.right ts).cons t).spanOf]
      exact .mk ht hh hb

theorem caseBody {body : CaseBody} (h : body.Written rules s ts)
    (hseat : Seat x s ts (body.Written rules s)) : x.Seats body.exprs := by
  cases h with
  | arrow ht hs =>
    have hseat := hseat.tail (plain_of_kind ht ⟨rfl, rfl⟩)
    exact hr.statement hs (hseat.imp id fun r _ hs => .arrow ht hs)
  | block hb => exact hr.block hb (hseat.imp id fun r _ hb => .block hb)

theorem whenCase {c : WhenCase} (h : c.Written rules .item ts)
    (hseat : Seat x .item ts (c.Written rules .item)) : x.Seats c.exprs := by
  cases h with
  | @mk t ts us pattern body ht hp hc hb =>
    refine .append (hr.expr hp (hseat.inside.left.imp id fun r hre hp => ?_))
      (hr.caseBody hb (hseat.inside.item.imp id fun r hre hb => ?_))
    · rw [← ((hre.left us).cons t).spanOf]
      exact .mk ht hp hc hb
    · rw [← ((hre.right ts).cons t).spanOf]
      exact .mk ht hp (hc.mono hre.alike.looser) hb

theorem elseCase {o : Option CaseBody} (h : CaseBody.ElseWritten rules o ts)
    (hseat : Seat x .item ts (CaseBody.ElseWritten rules o)) :
    x.Seats (CaseBody.exprsOption o) := by
  cases h with
  | none => exact .nil
  | some ht hb hu =>
    exact hr.caseBody hb (hseat.inside.left.imp id fun r _ hb => .some ht hb hu)
  | separated ht hb hv hu =>
    exact hr.caseBody hb (hseat.inside.left.imp id fun r _ hb => .separated ht hb hv hu)

/-- Where the cases of a `when` and its last case stand. -/
theorem whenCases {cs : List WhenCase} {o : Option CaseBody}
    (h : WhenCase.EachWritten rules o cs ts) :
    Seat x .item ts (WhenCase.EachWritten rules o cs) →
      x.Seats (WhenCase.exprsEach cs) ∧ x.Seats (CaseBody.exprsOption o) := by
  induction h with
  | done hl => exact fun hseat => ⟨.nil, hr.elseCase hl (hseat.imp id fun r _ hl => .done hl)⟩
  | @separated c cs t ts us hc he ht hcs ih =>
    intro hseat
    have hcase := hseat.left.imp id fun r _ hc => .separated hc he ht hcs
    obtain ⟨hrest, helse⟩ := ih (hseat.item.inside.imp id fun r hre hcs =>
      .separated hc ((hre.cons t).alike.caseBody he) ht hcs)
    exact ⟨.append (hr.whenCase hc hcase) hrest, helse⟩
  | @unseparated c cs t ts us hc he ht hb hcs ih =>
    intro hseat
    have hcase := hseat.left.imp id fun r _ hc => .unseparated hc he ht hb hcs
    have hrest : Seat x .item (t :: us) (WhenCase.EachWritten rules o cs) := by
      refine hseat.item.imp id fun r hre hcs => ?_
      obtain ⟨r, rfl⟩ := hre.front
      exact .unseparated hc (hre.alike.caseBody he) ht hb hcs
    obtain ⟨hrest, helse⟩ := ih hrest
    exact ⟨.append (hr.whenCase hc hcase) hrest, helse⟩

theorem whenStmt {stmt : WhenStmt} (h : stmt.Written rules s ts)
    (hseat : Seat x s ts (stmt.Written rules s)) : x.Seats stmt.exprs := by
  cases h with
  | @mk t u ts us vs init subject cases elseBody ht hi hs hu hc =>
    have hsubject := (hseat.tail (plain_of_word ht)).right (hi.balanced hr.balancing)
    have hcases : Seat x .item vs (WhenCase.EachWritten rules elseBody cases) := by
      refine hsubject.item.inside.imp id fun r hre hc => ?_
      rw [← ((((hre.cons u).right us).right ts).cons t).spanOf]
      exact .mk ht hi hs hu hc
    obtain ⟨hcases, helse⟩ := hr.whenCases hc hcases
    rw [WhenStmt.exprs]
    refine .append (.append (.append (hr.initDecls hi ?_) (hr.expr hs ?_)) hcases) helse
    · refine (hseat.tail (plain_of_word ht)).left.imp id fun r hre hi => ?_
      rw [← ((hre.left (us ++ u :: vs)).cons t).spanOf]
      exact .mk ht hi hs hu hc
    · refine hsubject.left.imp id fun r hre hs => ?_
      rw [← (((hre.left (u :: vs)).right ts).cons t).spanOf]
      exact .mk ht hi hs hu hc

end Control

section Level

variable (hr : (Rules.level n).Seated x)
include hr

theorem valueWritten {e : Expr} (h : e.ValueWritten (Rules.level n) s min ts)
    (hseat : Seat x s ts (e.ValueWritten (Rules.level n) s min)) : x.Seats e.exprs := by
  cases h with
  | ifExpr hs =>
    refine .self (absurd trivial) fun _ => hr.ifStmt hs (hseat.imp id fun r hre hs => ?_)
    rw [← hre.spanOf]
    exact .ifExpr hs
  | whenExpr hs =>
    refine .self (absurd trivial) fun _ => hr.whenStmt hs (hseat.imp id fun r hre hs => ?_)
    rw [← hre.spanOf]
    exact .whenExpr hs
  | expr he => exact hr.written he (hseat.imp id fun r _ he => .expr he)

theorem importDecl {d : ImportDecl} (h : d.Written (Rules.level n) ts)
    (hl : Continues .ident ts.tail)
    (hseat : Seat x s ts (StatementKind.Written (Rules.level n) s (.importDecl d))) :
    x.Seats d.exprs := by
  cases h with
  | plain => exact .nil
  | @call t u ts us path args ht hp hu ha =>
    refine hr.exprs ha (fun _ _ _ h he => he.mono h.looser) (hseat.inside.item.inside.imp id ?_)
    intro r hre ha
    have hrest := (hre.cons u).right ts
    rw [← (hrest.cons t).spanOf]
    exact .importDecl (.call ht hp hu ha) (hrest.continues hl)

theorem fnBody {body : FnBody} (h : body.Written (Rules.level n) s ts)
    (hseat : Seat x s ts (body.Written (Rules.level n) s)) : x.Seats body.exprs := by
  cases h with
  | expr ht he =>
    have hseat := hseat.tail (plain_of_kind ht ⟨rfl, rfl⟩)
    exact hr.expr he (hseat.imp id fun r _ he => .expr ht he)
  | block hb => exact hr.block hb (hseat.imp id fun r _ hb => .block hb)

theorem fnDecl {d : FnDecl} (h : d.Written (Rules.level n) s ts)
    (hseat : Seat x s ts (d.Written (Rules.level n) s)) : x.Seats d.exprs := by
  cases h with
  | @mk t u ts us vs ws name params result body ht hn hu hp hres hb =>
    have hparams := hp.enclosed (by rw [hu]; rfl) (by decide) rfl Param.Written.balanced
    have hseat := (hseat.tail (plain_of_word ht)).right hn.balanced
    have hseat := (@Seat.right x s (u :: us) (vs ++ ws) _ hseat hparams).right hres.balanced
    refine hr.fnBody hb (hseat.imp id fun r hre hb => ?_)
    rw [← (((((hre.right vs).right us).cons u).right ts).cons t).spanOf]
    exact .mk ht hn hu hp hres hb

theorem entry {st : Statement} (h : st.EntryWritten (Rules.level n) s ts)
    (hseat : Seat x s ts (st.EntryWritten (Rules.level n) s)) : x.Seats st.exprs := by
  cases h with
  | ifStmt hs =>
    refine hr.ifStmt hs (hseat.imp id fun r hre hs => ?_)
    rw [← hre.spanOf]
    exact .ifStmt hs
  | pair he hp => exact hr.expr he (hseat.imp id fun r _ he => .pair he hp)

theorem nodeDecl {d : NodeDecl} (h : d.Written (Rules.level n) ts) (hl : Continues .ident ts.tail)
    (hseat : Seat x s ts (StatementKind.Written (Rules.level n) s (.nodeDecl d))) :
    x.Seats d.exprs := by
  cases h with
  | @mk t u ts us vs name props body ht hn hu hp hb =>
    cases hb with
    | none => exact .nil
    | @some v vs entries hv he =>
      rw [NodeDecl.exprs]
      refine .statements fun st hst => ?_
      have hlist : Seat x .item vs (ListWritten [.comma] .closeBrace
          (Statement.EntryWritten (Rules.level n) .item) (Statement.EntryEndsBefore .item)
          entries) := by
        refine hseat.inside.item.inside.item.inside.imp id fun r hre he => ?_
        have hrest := (((hre.cons v).right us).cons u).right ts
        rw [← (hrest.cons t).spanOf]
        exact .nodeDecl (.mk ht hn hu hp (.some hv he)) (hrest.continues hl)
      obtain ⟨us, hw, hseat⟩ := hlist.items he (fun _ _ _ h hst => h.entry hst) st hst
      exact hr.entry hw hseat

theorem enumMember {m : EnumMember} (h : m.Written (Rules.level n) s ts)
    (hseat : Seat x s ts (m.Written (Rules.level n) s)) : x.Seats m.exprs := by
  cases h with
  | plain => exact .nil
  | @assigned t u ts name value hn hu hv =>
    have hseat := hseat.tail (plain_of_kind hn.kind ⟨rfl, rfl⟩)
    refine hr.expr hv ((hseat.tail (plain_of_kind hu ⟨rfl, rfl⟩)).imp id fun r hre hv => ?_)
    rw [← ((hre.cons u).cons t).spanOf]
    exact .assigned hn hu hv

theorem enumDecl {d : EnumDecl} (h : d.Written (Rules.level n) ts) (hl : Continues .ident ts.tail)
    (hseat : Seat x s ts (StatementKind.Written (Rules.level n) s (.enumDecl d))) :
    x.Seats d.exprs := by
  cases h with
  | @mk t u v ts name members ht hn hv hm =>
    intro hmem
    rw [EnumDecl.exprs, EnumMember.forall_exprsEach] at hmem ⊢
    have hlist : Seat x .item ts (ListWritten [.comma, .semicolon] .closeBrace
        (EnumMember.Written (Rules.level n) .item) (EnumMember.EndsBefore .item) members) := by
      refine hseat.inside.inside.inside.imp id fun r hre hm => ?_
      have hrest := (hre.cons v).cons u
      rw [← (hrest.cons t).spanOf]
      exact .enumDecl (.mk ht hn hv hm) (hrest.continues hl)
    intro m hm'
    obtain ⟨us, hw, hseat⟩ := hlist.items hm (fun _ _ _ h hm => h.enumMember hm) m hm'
    exact hr.enumMember hw hseat (hmem m hm')

theorem statementKind {k : StatementKind} (h : k.Written (Rules.level n) s ts)
    (hseat : Seat x s ts (k.Written (Rules.level n) s)) : x.Seats k.exprs := by
  cases h with
  | modDecl ht hl hn hb =>
    have hseat := (hseat.tail (plain_of_word ht)).right hn.balanced
    refine hr.block (s := s) hb (hseat.imp id fun r hre hb => ?_)
    exact .modDecl ht hl hn hb
  | useDecl => exact .nil
  | importDecl hd hl => exact hr.importDecl hd hl hseat
  | varDecl hd => exact hr.varDecl hd (hseat.imp id fun r _ hd => .varDecl hd)
  | fnDecl hd => exact hr.fnDecl hd (hseat.imp id fun r _ hd => .fnDecl hd)
  | nodeDecl hd hl => exact hr.nodeDecl hd hl hseat
  | assign hn ht hv =>
    have hseat := (hseat.right hn.name.balanced).tail (plain_of_kind ht ⟨rfl, rfl⟩)
    exact hr.value hv (hseat.imp id fun r _ hv => .assign hn ht hv)
  | ifStmt hs => exact hr.ifStmt hs (hseat.imp id fun r _ hs => .ifStmt hs)
  | forStmt hs => exact hr.forStmt hs (hseat.imp id fun r _ hs => .forStmt hs)
  | whenStmt hs => exact hr.whenStmt hs (hseat.imp id fun r _ hs => .whenStmt hs)
  | uiBlock ht hl hb =>
    refine hr.block (s := s) hb ((hseat.tail (plain_of_word ht)).imp id fun r hre hb => ?_)
    exact .uiBlock ht (hre.continues hl) hb
  | styleBlock ht hl hb =>
    refine hr.block (s := s) hb ((hseat.tail (plain_of_word ht)).imp id fun r hre hb => ?_)
    exact .styleBlock ht (hre.continues hl) hb
  | typeDecl => exact .nil
  | enumDecl hd hl => exact hr.enumDecl hd hl hseat
  | breakStmt => exact .nil
  | expr he => exact hr.written he (hseat.imp id fun r _ he => .expr he)

theorem step : (Rules.level (n + 1)).Seated x where
  balancing := Rules.level_balancing (n + 1)
  expr h hseat := hr.written h hseat
  value h hseat := hr.valueWritten h hseat
  statement {s st ts} h hseat := by
    cases h with
    | mk hk =>
      refine hr.statementKind hk (hseat.imp id fun r hre hk => ?_)
      rw [← hre.spanOf]
      exact .mk hk

end Level

end Rules.Seated

theorem Rules.level_seated (x : Accepted) : ∀ n, (Rules.level n).Seated x
  | 0 => ⟨Rules.level_balancing 0, False.elim, False.elim, False.elim⟩
  | n + 1 => (level_seated x n).step

/-- Where every expression of a program stands. -/
theorem Accepted.stands (x : Accepted) : ∀ e ∈ x.program.exprs, e.Stands x := by
  obtain ⟨n, hs⟩ := x.written.statements
  refine Seats.statements (fun st hst => ?_) fun e he => he
  obtain ⟨before, us, after, hsplit, hne, hw, hreplace⟩ :=
    hs.replace (fun _ _ _ h hst => h.statement hst) st hst
  obtain ⟨after, u, rfl⟩ := List.eq_nil_or_concat after |>.resolve_left hne
  obtain ⟨hall, hlast⟩ : x.tokens = before ++ (us ++ after) ∧ [x.last] = [u] := by
    refine List.append_inj' ?_ rfl
    rw [hsplit]
    simp
  obtain rfl := List.singleton_inj.1 hlast
  refine (Rules.level_seated x n).statement hw (.whole hall nofun fun us' hre hw => ?_)
  have hwhole := ((hre.left after).right before).left [x.last]
  rw [← hall] at hwhole
  refine ⟨⟨n, by simpa using hreplace us' hre hw⟩, ?_⟩
  rw [x.written.span, lastStop_congr hwhole.same, hwhole.head]

end Script
