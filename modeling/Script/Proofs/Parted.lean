import Mathlib.Data.List.Chain
import Script.Proofs.Openings

/-!
No string stands right behind a name. What is read behind a name on its line is an operator, a
bracket, a separator or a word, so a name is never taken for the letter that marks a string.
-/
namespace Script

/-- A token that is neither a word nor a string. -/
def TokenKind.isMark (k : TokenKind) : Bool := k != .ident && !k.isString

namespace Token

variable {t u : Token} {ts us : List Token} {k : TokenKind}

/-- If the one is a name and the other a string, then there is a line break between them. -/
def Parts (t u : Token) : Prop :=
  t.kind = .ident → t.keyword? = none → u.kind.isString = true → u.newlineBefore = true

def Parted (ts : List Token) : Prop := ts.IsChain Parts

/-- Tokens that may stand behind a name: a string at their front begins a line. -/
def Detached (ts : List Token) : Prop :=
  ∀ t ∈ ts.head?, t.kind.isString = true → t.newlineBefore = true

namespace Detached

theorem nil : Detached [] := nofun

theorem cons (ht : t.kind = k) (hk : k.isString = false) : Detached (t :: ts) := by
  intro u hu hs
  obtain rfl := Option.some.inj hu
  rw [ht, hk] at hs
  cases hs

theorem word {w : Keyword} (ht : t.keyword? = some w) : Detached (t :: ts) :=
  cons (kind_of_keyword? ht) rfl

theorem broken (ht : t.newlineBefore = true) : Detached (t :: ts) := by
  intro u hu _
  obtain rfl := Option.some.inj hu
  exact ht

theorem continues (ht : Continues k ts) (hk : k.isString = false) : Detached ts := by
  obtain ⟨t, hhead, hcontinues⟩ := ht
  obtain ⟨ts, rfl⟩ := List.head?_eq_some_iff.1 hhead
  simp only [Parser.continuesWith, Bool.and_eq_true, beq_iff_eq] at hcontinues
  exact cons hcontinues.1 hk

theorem append (h : Detached ts) (h' : Detached us) : Detached (ts ++ us) := by
  cases ts with
  | nil => exact h'
  | cons t ts => exact h

end Detached

namespace Parted

theorem nil : Parted [] := List.isChain_nil

/-- Any token stands before what may stand behind a name. -/
theorem name (h : Parted ts) (hd : Detached ts) : Parted (t :: ts) :=
  List.isChain_cons.2 ⟨fun u hu _ _ => hd u hu, h⟩

theorem mark (ht : t.kind = k) (hk : k.isMark = true) (h : Parted ts) : Parted (t :: ts) := by
  refine List.isChain_cons.2 ⟨fun _ _ hident => ?_, h⟩
  rw [← ht, hident] at hk
  cases hk

theorem string (ht : t.kind.isString = true) (h : Parted ts) : Parted (t :: ts) := by
  refine List.isChain_cons.2 ⟨fun _ _ hident => ?_, h⟩
  rw [hident] at ht
  cases ht

theorem word {w : Keyword} (ht : t.keyword? = some w) (h : Parted ts) : Parted (t :: ts) := by
  refine List.isChain_cons.2 ⟨fun _ _ _ hplain => ?_, h⟩
  rw [ht] at hplain
  cases hplain

theorem continues (ht : Parser.continuesWith k t = true) (hk : k.isMark = true) (h : Parted ts) :
    Parted (t :: ts) := by
  simp only [Parser.continuesWith, Bool.and_eq_true, beq_iff_eq] at ht
  exact h.mark ht.1 hk

theorem append (h : Parted ts) (h' : Parted us) (hd : Detached us) : Parted (ts ++ us) :=
  List.isChain_append.2 ⟨h, h', fun _ _ u hu _ _ => hd u hu⟩

/-- A token that follows a name on its line is no string. -/
theorem next (h : Parted (ts ++ t :: u :: us)) (ht : t.kind = .ident) (hp : t.keyword? = none)
    (hu : u.newlineBefore = false) : u.kind.isString = false := by
  have hchain := (List.isChain_append.1 h).2.1
  cases hs : u.kind.isString with
  | false => rfl
  | true => rwa [(List.isChain_cons_cons.1 hchain).1 ht hp hs] at hu

end Parted

end Token

open Token

variable {t u : Token} {ts us : List Token} {k : TokenKind}

theorem Operator.mark_of_kind {o : Operator} (ht : Operator.ofKind? t.kind = some o) :
    t.kind.isMark = true := by
  cases hk : t.kind <;> rw [hk] at ht <;> cases ht <;> rfl

theorem UnaryOp.mark_of_kind {op : UnaryOp} (ht : UnaryOp.ofKind? t.kind = some op) :
    t.kind.isMark = true := by
  cases hk : t.kind <;> rw [hk] at ht <;> cases ht <;> rfl

theorem TokenKind.not_string_of_mark (h : k.isMark = true) : k.isString = false := by
  simp only [isMark, Bool.and_eq_true, Bool.not_eq_true'] at h
  exact h.2

section Names

theorem Ident.MoreWritten.detached {is : List Ident} (h : Ident.MoreWritten is ts) :
    Detached ts := by
  cases h with
  | nil => exact .nil
  | cons hd => exact .continues ⟨_, rfl, hd⟩ rfl

theorem Ident.MoreWritten.parted {is : List Ident} (h : Ident.MoreWritten is ts) : Parted ts := by
  induction h with
  | nil => exact .nil
  | cons hd _ _ his ih => exact (ih.name his.detached).continues hd rfl

theorem Name.Written.parted {n : Name} (h : n.Written ts) : Parted ts := by
  cases h with
  | absolute _ his => exact his.parted.name his.detached
  | relative hd _ his => exact (his.parted.name his.detached).mark hd rfl

theorem TypeRef.Written.parted {type : TypeRef} (h : type.Written ts) : Parted ts := by
  cases h with
  | primitive => exact Parted.nil.name .nil
  | named hn => exact hn.parted

theorem TypeRef.AnnotationWritten.parted {o : Option TypeRef}
    (h : TypeRef.AnnotationWritten o ts) : Parted ts := by
  cases h with
  | none => exact .nil
  | some _ ht => exact ht.parted

theorem TypeRef.AnnotationWritten.detached {o : Option TypeRef}
    (h : TypeRef.AnnotationWritten o ts) : Detached ts := by
  cases h with
  | none => exact .nil
  | some hc => exact .continues hc rfl

/-- Behind an item of a list stands what ends it, or a line break. -/
theorem ListWritten.parted {α : Type} {separators : List TokenKind} {close : TokenKind}
    {written : α → List Token → Prop} {ends : List Token → α → Prop} {as : List α}
    (h : ListWritten separators close written ends as ts)
    (hs : ∀ k ∈ separators, k.isMark = true) (hc : close.isMark = true)
    (hw : ∀ {a us}, written a us → Parted us) : Parted ts := by
  induction h with
  | done ht => exact Parted.nil.mark ht hc
  | separated ha _ ht _ ih =>
    have hmark := hs _ ht
    exact (hw ha).append (ih.mark rfl hmark) (.cons rfl (TokenKind.not_string_of_mark hmark))
  | unseparated ha _ _ hb _ ih =>
    refine (hw ha).append ih ?_
    rcases hb with hclose | hbroken
    · exact .cons hclose (TokenKind.not_string_of_mark hc)
    · exact .broken hbroken

end Names

/-- What is nested inside a construct has no string right behind a name. -/
structure Rules.Parting (rules : Rules) : Prop where
  expr : ∀ {s min e ts}, rules.expr s min e ts → Parted ts
  value : ∀ {s min e ts}, rules.value s min e ts → Parted ts
  statement : ∀ {s st ts}, rules.statement s st ts → Parted ts

section Heads

variable {rules : Rules} {s : Surroundings}

theorem Block.Written.detached {b : Block} (h : b.Written rules ts) : Detached ts := by
  cases h with
  | mk ht => exact .cons ht rfl

theorem Block.TrailingWritten.detached {o : Option Block}
    (h : Block.TrailingWritten rules s o ts) : Detached ts := by
  cases h with
  | none => exact .nil
  | some _ hc => exact .continues hc rfl

theorem ElseIf.EachWritten.detached {es : List ElseIf} (h : ElseIf.EachWritten rules s es ts) :
    Detached ts := by
  cases h with
  | nil => exact .nil
  | cons he =>
    cases he with
    | mk ht => exact .word ht

theorem Block.ElseWritten.detached {o : Option Block} (h : Block.ElseWritten rules o ts) :
    Detached ts := by
  cases h with
  | none => exact .nil
  | some ht => exact .word ht

theorem CaseBody.Written.detached {body : CaseBody} (h : body.Written rules s ts) :
    Detached ts := by
  cases h with
  | arrow ht => exact .cons ht rfl
  | block hb => exact hb.detached

theorem FnBody.Written.detached {body : FnBody} (h : body.Written rules s ts) : Detached ts := by
  cases h with
  | expr ht => exact .cons ht rfl
  | block hb => exact hb.detached

end Heads

section Parting

variable {rules : Rules} {s : Surroundings} {min : Strength} (hr : rules.Parting)
include hr

theorem Block.Written.parted {b : Block} (h : b.Written rules ts) : Parted ts := by
  cases h with
  | mk ht hs => exact (hs.parted (by decide) rfl hr.statement).mark ht rfl

theorem Expr.OperandWritten.parted {e : Expr} (h : e.OperandWritten rules s ts) : Parted ts := by
  cases h with
  | unary ht ho => exact (hr.expr ho).mark rfl (UnaryOp.mark_of_kind ht)
  | word ht => exact Parted.nil.word ht
  | name hn => exact hn.name.parted
  | number ht => exact Parted.nil.mark ht rfl
  | string ht => exact Parted.nil.string ht
  | group ht hi hu =>
    exact ((hr.expr hi).append (Parted.nil.mark hu rfl) (.cons hu rfl)).mark ht rfl
  | array ht hi => exact (hi.parted (by decide) rfl hr.value).mark ht rfl
  | object ht _ he => exact (he.parted (by decide) rfl hr.statement).mark ht rfl

theorem Block.TrailingWritten.parted {o : Option Block} (h : Block.TrailingWritten rules s o ts) :
    Parted ts := by
  cases h with
  | none => exact .nil
  | some _ _ hb => exact hb.parted hr

theorem Expr.Extends.parted {left e : Expr} {o : Operator}
    (h : Expr.Extends rules s left o (t :: ts) e) (ht : Operator.ofKind? t.kind = some o) :
    Parted (t :: ts) := by
  refine Parted.mark rfl (Operator.mark_of_kind ht) ?_
  cases h with
  | binary _ hw => exact hr.expr hw
  | comparison _ hw => exact hr.expr hw
  | pair _ _ hv => exact hr.value hv
  | transition _ _ hn => exact hn.parted
  | call _ ha hb => exact (ha.parted (by decide) rfl hr.expr).append (hb.parted hr) hb.detached

theorem Expr.Written.parted {e : Expr} (h : e.Written rules s min ts) : Parted ts := by
  induction h with
  | operand he => exact he.parted hr
  | extend _ _ ho he ih =>
    have hmark := Operator.mark_of_kind ho.operator
    exact ih.append (he.parted hr ho.operator) (.cons rfl (TokenKind.not_string_of_mark hmark))

theorem ElseIf.Written.parted {e : ElseIf} (h : e.Written rules s ts) : Parted ts := by
  cases h with
  | mk ht hu hc hb =>
    exact (((hr.expr hc).append (hb.parted hr) hb.detached).word hu).word ht

theorem ElseIf.EachWritten.parted {es : List ElseIf} (h : ElseIf.EachWritten rules s es ts) :
    Parted ts := by
  induction h with
  | nil => exact .nil
  | cons he hes ih => exact (he.parted hr).append ih hes.detached

theorem Block.ElseWritten.parted {o : Option Block} (h : Block.ElseWritten rules o ts) :
    Parted ts := by
  cases h with
  | none => exact .nil
  | some ht hb => exact (hb.parted hr).word ht

theorem IfStmt.Written.parted {stmt : IfStmt} (h : stmt.Written rules s ts) : Parted ts := by
  cases h with
  | mk ht hc hb hes hl =>
    have helse := (hes.parted hr).append (hl.parted hr) hl.detached
    have hrest := hes.detached.append hl.detached
    have hbody := (hb.parted hr).append helse hrest
    exact ((hr.expr hc).append hbody (hb.detached.append hrest)).word ht

theorem VarDecl.Written.parted {d : VarDecl} (h : d.Written rules s ts) : Parted ts := by
  cases h with
  | @mk t u v ts us _ _ _ _ ht _ hy hv he =>
    have hassign : Detached (v :: us) := .cons hv rfl
    have hvalue := (hr.value he).mark hv rfl
    exact ((hy.parted.append hvalue hassign).name (hy.detached.append hassign)).word ht

/-- The bindings at the front of a head are ended by semicolons, whatever stands behind them. -/
theorem VarDecl.InitWritten.parted {ds : List VarDecl} (h : VarDecl.InitWritten rules s ds ts)
    (hus : Parted us) : Parted (ts ++ us) := by
  induction h with
  | nil => exact hus
  | cons hd ht _ ih =>
    rw [List.append_assoc]
    exact (hd.parted hr).append (ih.mark ht rfl) (.cons ht rfl)

theorem ForHead.Written.parted {head : ForHead} (h : head.Written rules s ts) : Parted ts := by
  cases h with
  | iterate _ _ hu hi => exact ((hr.value hi).word hu).name (.word hu)
  | indexed _ _ hc _ hu hi =>
    exact ((((hr.value hi).word hu).name (.word hu)).mark hc rfl).name (.cons hc rfl)
  | init hd => exact ts.append_nil ▸ hd.parted hr .nil
  | counted hd hc => exact hd.parted hr (hr.expr hc)

theorem ForStmt.Written.parted {stmt : ForStmt} (h : stmt.Written rules s ts) : Parted ts := by
  cases h with
  | mk ht hh hb => exact ((hh.parted hr).append (hb.parted hr) hb.detached).word ht

theorem CaseBody.Written.parted {body : CaseBody} (h : body.Written rules s ts) : Parted ts := by
  cases h with
  | arrow ht hs => exact (hr.statement hs).mark ht rfl
  | block hb => exact hb.parted hr

theorem WhenCase.Written.parted {c : WhenCase} (h : c.Written rules s ts) : Parted ts := by
  cases h with
  | mk ht hp _ hb => exact ((hr.expr hp).append (hb.parted hr) hb.detached).word ht

theorem CaseBody.ElseWritten.parted {o : Option CaseBody} (h : CaseBody.ElseWritten rules o ts) :
    Parted ts := by
  cases h with
  | none ht => exact Parted.nil.mark ht rfl
  | some ht hb hu =>
    exact ((hb.parted hr).append (Parted.nil.mark hu rfl) (.cons hu rfl)).word ht
  | separated ht hb hv hu =>
    have hclose := (Parted.nil.mark hu rfl).mark hv rfl
    exact ((hb.parted hr).append hclose (.cons hv rfl)).word ht

theorem WhenCase.EachWritten.parted {o : Option CaseBody} {cs : List WhenCase}
    (h : WhenCase.EachWritten rules o cs ts) : Parted ts := by
  induction h with
  | done hl => exact hl.parted hr
  | separated hc _ ht _ ih => exact (hc.parted hr).append (ih.mark ht rfl) (.cons ht rfl)
  | unseparated hc _ _ hb _ ih =>
    refine (hc.parted hr).append ih ?_
    rcases hb with hclose | hbroken
    · exact .cons hclose rfl
    · exact .broken hbroken

theorem WhenStmt.Written.parted {stmt : WhenStmt} (h : stmt.Written rules s ts) : Parted ts := by
  cases h with
  | mk ht hi hs hu hc =>
    have hcases := (hc.parted hr).mark hu rfl
    exact (hi.parted hr ((hr.expr hs).append hcases (.cons hu rfl))).word ht

theorem Expr.ValueWritten.parted {e : Expr} (h : e.ValueWritten rules s min ts) : Parted ts := by
  cases h with
  | ifExpr hs => exact hs.parted hr
  | whenExpr hs => exact hs.parted hr
  | expr he => exact he.parted hr

end Parting

section Declarations

theorem Name.MoreWritten.detached {ns : List Name} (h : Name.MoreWritten ns ts) : Detached ts := by
  cases h with
  | nil => exact .nil
  | cons ht => exact .cons ht rfl

theorem Name.MoreWritten.parted {ns : List Name} (h : Name.MoreWritten ns ts) : Parted ts := by
  induction h with
  | nil => exact .nil
  | cons ht hn hns ih => exact (hn.parted.append ih hns.detached).mark ht rfl

theorem UseDecl.Written.parted {d : UseDecl} (h : d.Written ts) : Parted ts := by
  cases h with
  | mk ht hp hs =>
    cases hs with
    | nil => exact (hp.parted.append .nil .nil).word ht
    | cons hc hn hns =>
      have hnames := (hn.parted.append hns.parted hns.detached).continues hc rfl
      exact (hp.parted.append hnames (.continues ⟨_, rfl, hc⟩ rfl)).word ht

theorem Param.Written.parted {p : Param} (h : p.Written ts) : Parted ts := by
  cases h with
  | mk _ ht => exact ht.parted.name ht.detached

theorem Property.Written.parted {p : Property} (h : p.Written ts) : Parted ts := by
  cases h with
  | mk hn ht => exact hn.parted.append ht.parted ht.detached

theorem FieldDecl.Written.parted {d : FieldDecl} (h : d.Written ts) : Parted ts := by
  cases h with
  | mk _ hu ht => exact (ht.parted.mark hu rfl).name (.cons hu rfl)

theorem TypeDecl.Written.parted {d : TypeDecl} (h : d.Written ts) : Parted ts := by
  cases h with
  | mk ht _ hv hf =>
    have hfields := hf.parted (by decide) rfl FieldDecl.Written.parted
    exact ((hfields.mark hv rfl).name (.cons hv rfl)).word ht

variable {rules : Rules} {s : Surroundings} (hr : rules.Parting)
include hr

theorem ImportDecl.Written.parted {d : ImportDecl} (h : d.Written rules ts) : Parted ts := by
  cases h with
  | plain ht hp => exact hp.parted.word ht
  | call ht hp hu ha =>
    have hargs := (ha.parted (by decide) rfl hr.expr).continues hu rfl
    exact (hp.parted.append hargs (.continues ⟨_, rfl, hu⟩ rfl)).word ht

theorem FnBody.Written.parted {body : FnBody} (h : body.Written rules s ts) : Parted ts := by
  cases h with
  | expr ht he => exact (hr.expr he).mark ht rfl
  | block hb => exact hb.parted hr

theorem FnDecl.Written.parted {d : FnDecl} (h : d.Written rules s ts) : Parted ts := by
  cases h with
  | mk ht hn hu hp hres hb =>
    have hparams := hp.parted (by decide) rfl Param.Written.parted
    have hbody := hres.parted.append (hb.parted hr) hb.detached
    have hrest := hparams.append hbody (hres.detached.append hb.detached)
    exact (hn.parted.append (hrest.mark hu rfl) (.cons hu rfl)).word ht

theorem Statement.EntryWritten.parted {st : Statement} (h : st.EntryWritten rules s ts) :
    Parted ts := by
  cases h with
  | ifStmt hs => exact hs.parted hr
  | pair he => exact hr.expr he

theorem NodeDecl.BodyWritten.parted {o : Option (List Statement)}
    (h : NodeDecl.BodyWritten rules o ts) : Parted ts ∧ Detached ts := by
  cases h with
  | none => exact ⟨.nil, .nil⟩
  | some ht he =>
    have hentries := he.parted (by decide) rfl (Statement.EntryWritten.parted hr)
    exact ⟨hentries.continues ht rfl, .continues ⟨_, rfl, ht⟩ rfl⟩

theorem NodeDecl.Written.parted {d : NodeDecl} (h : d.Written rules ts) : Parted ts := by
  cases h with
  | mk ht hn hu hp hb =>
    have hprops := hp.parted (by decide) rfl Property.Written.parted
    obtain ⟨hbody, hdetached⟩ := hb.parted hr
    have hrest := hprops.append hbody hdetached
    exact (hn.parted.append (hrest.mark hu rfl) (.cons hu rfl)).word ht

theorem EnumMember.Written.parted {m : EnumMember} (h : m.Written rules s ts) : Parted ts := by
  cases h with
  | plain => exact Parted.nil.name .nil
  | assigned _ hu hv => exact ((hr.expr hv).mark hu rfl).name (.cons hu rfl)

theorem EnumDecl.Written.parted {d : EnumDecl} (h : d.Written rules ts) : Parted ts := by
  cases h with
  | mk ht _ hv hm =>
    have hmembers := hm.parted (by decide) rfl (EnumMember.Written.parted hr)
    exact ((hmembers.mark hv rfl).name (.cons hv rfl)).word ht

theorem StatementKind.Written.parted {k : StatementKind} (h : k.Written rules s ts) :
    Parted ts := by
  cases h with
  | modDecl ht _ hn hb => exact (hn.parted.append (hb.parted hr) hb.detached).word ht
  | useDecl hd => exact hd.parted
  | importDecl hd => exact hd.parted hr
  | varDecl hd => exact hd.parted hr
  | fnDecl hd => exact hd.parted hr
  | nodeDecl hd => exact hd.parted hr
  | assign hn ht hv => exact hn.name.parted.append ((hr.value hv).mark ht rfl) (.cons ht rfl)
  | ifStmt hs => exact hs.parted hr
  | forStmt hs => exact hs.parted hr
  | whenStmt hs => exact hs.parted hr
  | uiBlock ht _ hb => exact (hb.parted hr).word ht
  | styleBlock ht _ hb => exact (hb.parted hr).word ht
  | typeDecl hd => exact hd.parted
  | enumDecl hd => exact hd.parted hr
  | breakStmt ht => exact Parted.nil.word ht
  | expr he => exact he.parted hr

end Declarations

theorem Rules.level_parting : ∀ n, (Rules.level n).Parting
  | 0 => ⟨False.elim, False.elim, False.elim⟩
  | n + 1 =>
    have hr := level_parting n
    ⟨fun h => h.parted hr, fun h => h.parted hr, fun h => by
      cases h with
      | mk hk => exact hk.parted hr⟩

/-- In a program no string stands right behind a name. -/
theorem Program.Written.parted {p : Program} (h : p.Written ts) : Parted ts := by
  obtain ⟨n, hstatements⟩ := h.statements
  exact hstatements.parted (by decide) rfl (Rules.level_parting n).statement

end Script
