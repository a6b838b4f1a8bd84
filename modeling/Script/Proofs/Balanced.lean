import Script.Proofs.Brackets
import Script.Proofs.Openings
import Script.Rules.Statement

/-!
Every part of a program closes its brackets in their turn: they stand around the parts that are
written in them, and no other token of it is a bracket.
-/
namespace Script

open Token

variable {t u : Token} {ts us : List Token} {k : TokenKind}

theorem Token.Balanced.cons (ht : t.kind = k) (hk : k.isOpener = false ∧ k.isCloser = false)
    (h : Balanced ts) : Balanced (t :: ts) := by
  subst ht
  exact .plain hk.1 hk.2 h

theorem Token.Balanced.word {w : Keyword} (ht : t.keyword? = some w) (h : Balanced ts) :
    Balanced (t :: ts) := h.cons (kind_of_keyword? ht) ⟨rfl, rfl⟩

theorem Token.Balanced.continues (ht : Parser.continuesWith k t = true)
    (hk : k.isOpener = false ∧ k.isCloser = false) (h : Balanced ts) : Balanced (t :: ts) := by
  simp only [Parser.continuesWith, Bool.and_eq_true, beq_iff_eq] at ht
  exact h.cons ht.1 hk

/-- The operators between operands, a call apart, and those before an operand are no brackets. -/
theorem Operator.plain_of_kind {o : Operator} (ht : Operator.ofKind? t.kind = some o)
    (ho : o.op ≠ .call) : t.kind.isOpener = false ∧ t.kind.isCloser = false := by
  cases hk : t.kind <;> rw [hk] at ht <;> cases ht
  all_goals first
    | exact ⟨rfl, rfl⟩
    | exact absurd rfl ho

theorem UnaryOp.plain_of_kind {op : UnaryOp} (ht : UnaryOp.ofKind? t.kind = some op) :
    t.kind.isOpener = false ∧ t.kind.isCloser = false := by
  cases hk : t.kind <;> rw [hk] at ht <;> cases ht <;> exact ⟨rfl, rfl⟩

theorem Operator.opener_of_kind {o : Operator} (ht : Operator.ofKind? t.kind = some o)
    (ho : o.op = .call) : t.kind.isOpener = true := by
  cases hk : t.kind <;> rw [hk] at ht <;> cases ht
  all_goals first
    | rfl
    | cases ho

/-- A word is no bracket. -/
theorem Token.plain_of_word {w : Keyword} (ht : t.keyword? = some w) :
    t.kind.isOpener = false ∧ t.kind.isCloser = false := by
  rw [kind_of_keyword? ht]
  exact ⟨rfl, rfl⟩

theorem Token.plain_of_kind {k : TokenKind} (ht : t.kind = k)
    (hk : k.isOpener = false ∧ k.isCloser = false) :
    t.kind.isOpener = false ∧ t.kind.isCloser = false := ht ▸ hk

section Names

theorem Ident.Written.balanced {i : Ident} (h : i.Written t)
    (hts : Balanced ts) : Balanced (t :: ts) :=
  hts.cons h.kind ⟨rfl, rfl⟩

theorem Ident.MoreWritten.balanced {is : List Ident} (h : Ident.MoreWritten is ts) :
    Balanced ts := by
  induction h with
  | nil => exact .nil
  | cons hd _ hi _ ih => exact (hi.balanced ih).continues hd ⟨rfl, rfl⟩

theorem Name.Written.balanced {n : Name} (h : n.Written ts) : Balanced ts := by
  cases h with
  | absolute hi his => exact hi.balanced his.balanced
  | relative hd hi his => exact (hi.balanced his.balanced).cons hd ⟨rfl, rfl⟩

theorem TypeRef.Written.balanced {type : TypeRef} (h : type.Written ts) : Balanced ts := by
  cases h with
  | primitive hk => exact Balanced.nil.cons hk ⟨rfl, rfl⟩
  | named hn => exact hn.balanced

theorem TypeRef.AnnotationWritten.balanced {o : Option TypeRef}
    (h : TypeRef.AnnotationWritten o ts) : Balanced ts := by
  cases h with
  | none => exact .nil
  | some _ ht => exact ht.balanced

/-- The items of a list with what separates them are balanced, and a token that closes the list
follows them. -/
theorem ListWritten.balanced {α : Type} {separators : List TokenKind} {close : TokenKind}
    {written : α → List Token → Prop} {ends : List Token → α → Prop} {as : List α}
    (h : ListWritten separators close written ends as ts)
    (hs : ∀ k ∈ separators, k.isOpener = false ∧ k.isCloser = false)
    (hw : ∀ {a us}, written a us → Balanced us) :
    ∃ us c, ts = us ++ [c] ∧ c.kind = close ∧ Balanced us := by
  induction h with
  | @done t ht => exact ⟨[], t, rfl, ht, .nil⟩
  | @separated a as t ts us ha _ ht _ ih =>
    obtain ⟨vs, c, rfl, hc, hvs⟩ := ih
    refine ⟨ts ++ t :: vs, c, by simp, hc, ?_⟩
    exact (hw ha).append (hvs.cons rfl (hs _ ht))
  | @unseparated a as t ts us ha _ _ _ _ ih =>
    obtain ⟨vs, c, hvs, hc, hbalanced⟩ := ih
    exact ⟨ts ++ vs, c, by rw [hvs, List.append_assoc], hc, (hw ha).append hbalanced⟩

/-- A list with the bracket before it is balanced. -/
theorem ListWritten.enclosed {α : Type} {separators : List TokenKind} {close : TokenKind}
    {written : α → List Token → Prop} {ends : List Token → α → Prop} {as : List α}
    (h : ListWritten separators close written ends as ts) (ht : t.kind.isOpener = true)
    (hs : ∀ k ∈ separators, k.isOpener = false ∧ k.isCloser = false)
    (hc : close.isCloser = true) (hw : ∀ {a us}, written a us → Balanced us) :
    Balanced (t :: ts) := by
  obtain ⟨us, c, rfl, rfl, hus⟩ := h.balanced hs hw
  exact hus.enclosed ht hc

/-- The brackets of a list enclose its items. -/
theorem ListWritten.shallow {α : Type} {n : Nat} {separators : List TokenKind} {close : TokenKind}
    {written : α → List Token → Prop} {ends : List Token → α → Prop} {as : List α}
    (h : ListWritten separators close written ends as ts) (ht : t.kind.isOpener = true)
    (hs : ∀ k ∈ separators, k.isOpener = false ∧ k.isCloser = false)
    (hw : ∀ {a us}, written a us → Balanced us) (hn : Shallow n (t :: ts)) :
    ∀ v ∈ ts, v.start ≠ n := by
  obtain ⟨us, c, rfl, -, hus⟩ := h.balanced hs hw
  exact hn.closed ht hus

end Names

/-- What is nested inside a construct closes its own brackets. -/
structure Rules.Balancing (rules : Rules) : Prop where
  expr : ∀ {s min e ts}, rules.expr s min e ts → Balanced ts
  value : ∀ {s min e ts}, rules.value s min e ts → Balanced ts
  statement : ∀ {s st ts}, rules.statement s st ts → Balanced ts

section Balancing

variable {rules : Rules} {s : Surroundings} {min : Strength} (hr : rules.Balancing)
include hr

theorem Block.Written.balanced {b : Block} (h : b.Written rules ts) : Balanced ts := by
  cases h with
  | mk ht hs => exact hs.enclosed (by rw [ht]; rfl) (by decide) rfl hr.statement

theorem Expr.OperandWritten.balanced {e : Expr} (h : e.OperandWritten rules s ts) :
    Balanced ts := by
  cases h with
  | unary ht ho => exact (hr.expr ho).cons rfl (UnaryOp.plain_of_kind ht)
  | word ht => exact Balanced.nil.word ht
  | name hn => exact hn.name.balanced
  | number ht => exact Balanced.nil.cons ht ⟨rfl, rfl⟩
  | @string t _ ht =>
    refine Balanced.nil.cons rfl ?_
    cases hk : t.kind <;> rw [hk] at ht <;> cases ht <;> exact ⟨rfl, rfl⟩
  | group ht hi hu => exact (hr.expr hi).enclosed (by rw [ht]; rfl) (by rw [hu]; rfl)
  | array ht hi => exact hi.enclosed (by rw [ht]; rfl) (by decide) rfl hr.value
  | object ht _ he => exact he.enclosed (by rw [ht]; rfl) (by decide) rfl hr.statement

theorem Block.TrailingWritten.balanced {o : Option Block} (h : Block.TrailingWritten rules s o ts) :
    Balanced ts := by
  cases h with
  | none => exact .nil
  | some _ _ hb => exact hb.balanced hr

theorem Expr.Extends.balanced {left e : Expr} {o : Operator}
    (h : Expr.Extends rules s left o (t :: ts) e) (ht : Operator.ofKind? t.kind = some o) :
    Balanced (t :: ts) := by
  cases h with
  | binary ho hw => exact (hr.expr hw).cons rfl (Operator.plain_of_kind ht (by simp [ho]))
  | comparison ho hw => exact (hr.expr hw).cons rfl (Operator.plain_of_kind ht (by simp [ho]))
  | pair ho _ hv => exact (hr.value hv).cons rfl (Operator.plain_of_kind ht (by simp [ho]))
  | transition ho _ hn => exact hn.balanced.cons rfl (Operator.plain_of_kind ht (by simp [ho]))
  | call ho ha hb =>
    rw [← List.cons_append]
    exact (ha.enclosed (Operator.opener_of_kind ht ho) (by decide) rfl hr.expr).append
      (hb.balanced hr)

theorem Expr.Written.balanced {e : Expr} (h : e.Written rules s min ts) : Balanced ts := by
  induction h with
  | operand he => exact he.balanced hr
  | extend _ _ ho he ih => exact ih.append (he.balanced hr ho.operator)

theorem ElseIf.Written.balanced {e : ElseIf} (h : e.Written rules s ts) : Balanced ts := by
  cases h with
  | mk ht hu hc hb => exact (((hr.expr hc).append (hb.balanced hr)).word hu).word ht

theorem ElseIf.EachWritten.balanced {es : List ElseIf} (h : ElseIf.EachWritten rules s es ts) :
    Balanced ts := by
  induction h with
  | nil => exact .nil
  | cons he _ ih => exact (he.balanced hr).append ih

theorem Block.ElseWritten.balanced {o : Option Block} (h : Block.ElseWritten rules o ts) :
    Balanced ts := by
  cases h with
  | none => exact .nil
  | some ht hb => exact (hb.balanced hr).word ht

theorem IfStmt.Written.balanced {stmt : IfStmt} (h : stmt.Written rules s ts) : Balanced ts := by
  cases h with
  | mk ht hc hb hes hl =>
    refine Balanced.word ht ((hr.expr hc).append ((hb.balanced hr).append ?_))
    exact (hes.balanced hr).append (hl.balanced hr)

theorem VarDecl.Written.balanced {d : VarDecl} (h : d.Written rules s ts) : Balanced ts := by
  cases h with
  | mk ht hn hy hv he =>
    exact (hn.balanced (hy.balanced.append ((hr.value he).cons hv ⟨rfl, rfl⟩))).word ht

theorem VarDecl.InitWritten.balanced {ds : List VarDecl} (h : VarDecl.InitWritten rules s ds ts) :
    Balanced ts := by
  induction h with
  | nil => exact .nil
  | cons hd ht _ ih => exact (hd.balanced hr).append (ih.cons ht ⟨rfl, rfl⟩)

theorem ForHead.Written.balanced {head : ForHead} (h : head.Written rules s ts) : Balanced ts := by
  cases h with
  | iterate hn _ hu hi => exact hn.balanced ((hr.value hi).word hu)
  | indexed hx _ hc hn hu hi =>
    exact hx.balanced ((hn.balanced ((hr.value hi).word hu)).cons hc ⟨rfl, rfl⟩)
  | init hd => exact hd.balanced hr
  | counted hd hc => exact (hd.balanced hr).append (hr.expr hc)

theorem ForStmt.Written.balanced {stmt : ForStmt} (h : stmt.Written rules s ts) : Balanced ts := by
  cases h with
  | mk ht hh hb => exact ((hh.balanced hr).append (hb.balanced hr)).word ht

theorem CaseBody.Written.balanced {body : CaseBody} (h : body.Written rules s ts) :
    Balanced ts := by
  cases h with
  | arrow ht hs => exact (hr.statement hs).cons ht ⟨rfl, rfl⟩
  | block hb => exact hb.balanced hr

theorem WhenCase.Written.balanced {c : WhenCase} (h : c.Written rules s ts) : Balanced ts := by
  cases h with
  | mk ht hp _ hb => exact ((hr.expr hp).append (hb.balanced hr)).word ht

/-- The cases of a `when` are balanced up to its closing brace. -/
theorem WhenCase.EachWritten.balanced {o : Option CaseBody} {cs : List WhenCase}
    (h : WhenCase.EachWritten rules o cs ts) :
    ∃ us c, ts = us ++ [c] ∧ c.kind = .closeBrace ∧ Balanced us := by
  induction h with
  | done hl =>
    cases hl with
    | @none t ht => exact ⟨[], t, rfl, ht, .nil⟩
    | @some t u ts body ht hb hu => exact ⟨t :: ts, u, rfl, hu, (hb.balanced hr).word ht⟩
    | @separated t u v ts body ht hb hv hu =>
      refine ⟨t :: (ts ++ [v]), u, by simp, hu, ?_⟩
      exact ((hb.balanced hr).append (Balanced.nil.cons hv ⟨rfl, rfl⟩)).word ht
  | @separated c cs t ts us hc _ ht _ ih =>
    obtain ⟨vs, v, rfl, hv, hvs⟩ := ih
    refine ⟨ts ++ t :: vs, v, by simp, hv, ?_⟩
    exact (hc.balanced hr).append (hvs.cons ht ⟨rfl, rfl⟩)
  | @unseparated c cs t ts us hc _ _ _ _ ih =>
    obtain ⟨vs, v, hvs, hv, hbalanced⟩ := ih
    exact ⟨ts ++ vs, v, by rw [hvs, List.append_assoc], hv, (hc.balanced hr).append hbalanced⟩

theorem WhenStmt.Written.balanced {stmt : WhenStmt} (h : stmt.Written rules s ts) :
    Balanced ts := by
  cases h with
  | mk ht hi hs hu hc =>
    obtain ⟨vs, c, rfl, hclose, hvs⟩ := hc.balanced hr
    refine Balanced.word ht ((hi.balanced hr).append ((hr.expr hs).append ?_))
    exact hvs.enclosed (by rw [hu]; rfl) (by rw [hclose]; rfl)

theorem Expr.ValueWritten.balanced {e : Expr} (h : e.ValueWritten rules s min ts) :
    Balanced ts := by
  cases h with
  | ifExpr hs => exact hs.balanced hr
  | whenExpr hs => exact hs.balanced hr
  | expr he => exact he.balanced hr

end Balancing

section Declarations

theorem Name.MoreWritten.balanced {ns : List Name} (h : Name.MoreWritten ns ts) : Balanced ts := by
  induction h with
  | nil => exact .nil
  | cons ht hn _ ih => exact (hn.balanced.append ih).cons ht ⟨rfl, rfl⟩

theorem UseDecl.Written.balanced {d : UseDecl} (h : d.Written ts) : Balanced ts := by
  cases h with
  | mk ht hp hs =>
    refine (hp.balanced.append ?_).word ht
    cases hs with
    | nil => exact .nil
    | cons hc hn hns => exact (hn.balanced.append hns.balanced).continues hc ⟨rfl, rfl⟩

theorem Param.Written.balanced {p : Param} (h : p.Written ts) : Balanced ts := by
  cases h with
  | mk hn ht => exact hn.balanced ht.balanced

theorem Property.Written.balanced {p : Property} (h : p.Written ts) : Balanced ts := by
  cases h with
  | mk hn ht => exact hn.balanced.append ht.balanced

theorem FieldDecl.Written.balanced {d : FieldDecl} (h : d.Written ts) : Balanced ts := by
  cases h with
  | mk hn hu ht => exact hn.balanced (ht.balanced.cons hu ⟨rfl, rfl⟩)

theorem TypeDecl.Written.balanced {d : TypeDecl} (h : d.Written ts) : Balanced ts := by
  cases h with
  | mk ht hn hv hf =>
    have hfields := hf.enclosed (by rw [hv]; rfl) (by decide) rfl FieldDecl.Written.balanced
    exact (hn.balanced hfields).word ht

variable {rules : Rules} {s : Surroundings} (hr : rules.Balancing)
include hr

theorem ImportDecl.Written.balanced {d : ImportDecl} (h : d.Written rules ts) : Balanced ts := by
  cases h with
  | plain ht hp => exact hp.balanced.word ht
  | call ht hp hu ha =>
    simp only [Parser.continuesWith, Bool.and_eq_true, beq_iff_eq] at hu
    have hargs := ha.enclosed (by rw [hu.1]; rfl) (by decide) rfl hr.expr
    exact (hp.balanced.append hargs).word ht

theorem FnDecl.Written.balanced {d : FnDecl} (h : d.Written rules s ts) : Balanced ts := by
  cases h with
  | @mk t u ts us vs ws name params result body ht hn hu hp hres hb =>
    have hparams := hp.enclosed (by rw [hu]; rfl) (by decide) rfl Param.Written.balanced
    have hbody : Balanced ws := by
      cases hb with
      | expr ht he => exact (hr.expr he).cons ht ⟨rfl, rfl⟩
      | block hb => exact hb.balanced hr
    rw [← List.cons_append (a := u)]
    exact (hn.balanced.append (hparams.append (hres.balanced.append hbody))).word ht

theorem Statement.EntryWritten.balanced {st : Statement} (h : st.EntryWritten rules s ts) :
    Balanced ts := by
  cases h with
  | ifStmt hs => exact hs.balanced hr
  | pair he => exact hr.expr he

theorem NodeDecl.Written.balanced {d : NodeDecl} (h : d.Written rules ts) : Balanced ts := by
  cases h with
  | @mk t u ts us vs name props body ht hn hu hp hb =>
    have hprops := hp.enclosed (by rw [hu]; rfl) (by decide) rfl Property.Written.balanced
    have hbody : Balanced vs := by
      cases hb with
      | none => exact .nil
      | some ht he =>
        simp only [Parser.continuesWith, Bool.and_eq_true, beq_iff_eq] at ht
        exact he.enclosed (by rw [ht.1]; rfl) (by decide) rfl
          (Statement.EntryWritten.balanced hr)
    rw [← List.cons_append (a := u)]
    exact (hn.balanced.append (hprops.append hbody)).word ht

theorem EnumMember.Written.balanced {m : EnumMember} (h : m.Written rules s ts) : Balanced ts := by
  cases h with
  | plain hn => exact hn.balanced .nil
  | assigned hn hu hv => exact hn.balanced ((hr.expr hv).cons hu ⟨rfl, rfl⟩)

theorem EnumDecl.Written.balanced {d : EnumDecl} (h : d.Written rules ts) : Balanced ts := by
  cases h with
  | mk ht hn hv hm =>
    have hmembers := hm.enclosed (by rw [hv]; rfl) (by decide) rfl (EnumMember.Written.balanced hr)
    exact (hn.balanced hmembers).word ht

theorem StatementKind.Written.balanced {k : StatementKind} (h : k.Written rules s ts) :
    Balanced ts := by
  cases h with
  | modDecl ht _ hn hb => exact (hn.balanced.append (hb.balanced hr)).word ht
  | useDecl hd => exact hd.balanced
  | importDecl hd => exact hd.balanced hr
  | varDecl hd => exact hd.balanced hr
  | fnDecl hd => exact hd.balanced hr
  | nodeDecl hd => exact hd.balanced hr
  | assign hn ht hv => exact hn.name.balanced.append ((hr.value hv).cons ht ⟨rfl, rfl⟩)
  | ifStmt hs => exact hs.balanced hr
  | forStmt hs => exact hs.balanced hr
  | whenStmt hs => exact hs.balanced hr
  | uiBlock ht _ hb => exact (hb.balanced hr).word ht
  | styleBlock ht _ hb => exact (hb.balanced hr).word ht
  | typeDecl hd => exact hd.balanced
  | enumDecl hd => exact hd.balanced hr
  | breakStmt ht => exact Balanced.nil.word ht
  | expr he => exact he.balanced hr

end Declarations

theorem Rules.level_balancing : ∀ n, (Rules.level n).Balancing
  | 0 => ⟨False.elim, False.elim, False.elim⟩
  | n + 1 =>
    have hr := level_balancing n
    ⟨fun h => h.balanced hr, fun h => h.balanced hr, fun h => by
      cases h with
      | mk hk => exact hk.balanced hr⟩

end Script
