import Script.Rules.Expression
import Script.Tree.Chunks

/-!
How `if`, `for` and `when` are written, and the bindings at the front of their heads.
-/
namespace Script

variable (rules : Rules) (s : Surroundings)

inductive ElseIf.Written : ElseIf → List Token → Prop
  | mk {t u : Token} {ts us : List Token} {condition : Expr} {body : Block}
      (ht : t.keyword? = some .elseWord) (hu : u.keyword? = some .ifWord)
      (hc : rules.expr s.head .group condition ts) (hb : body.Written rules us) :
      ElseIf.Written ⟨condition, body, Token.spanOf (t :: u :: (ts ++ us))⟩
        (t :: u :: (ts ++ us))

inductive ElseIf.EachWritten : List ElseIf → List Token → Prop
  | nil : EachWritten [] []
  | cons {e : ElseIf} {es : List ElseIf} {ts us : List Token} (he : e.Written rules s ts)
      (hes : EachWritten es us) : EachWritten (e :: es) (ts ++ us)

inductive Block.ElseWritten : Option Block → List Token → Prop
  | none : ElseWritten none []
  | some {t : Token} {body : Block} {ts : List Token} (ht : t.keyword? = some .elseWord)
      (hb : body.Written rules ts) : ElseWritten (some body) (t :: ts)

inductive IfStmt.Written : IfStmt → List Token → Prop
  | mk {t : Token} {ts us vs ws : List Token} {condition : Expr} {body : Block}
      {elseIfs : List ElseIf} {elseBody : Option Block} (ht : t.keyword? = some .ifWord)
      (hc : rules.expr s.head .group condition ts) (hb : body.Written rules us)
      (hes : ElseIf.EachWritten rules s elseIfs vs) (hl : Block.ElseWritten rules elseBody ws) :
      IfStmt.Written
        ⟨condition, body, elseIfs, elseBody, Token.spanOf (t :: (ts ++ (us ++ (vs ++ ws))))⟩
        (t :: (ts ++ (us ++ (vs ++ ws))))

inductive VarDecl.Written : VarDecl → List Token → Prop
  | mk {t u v : Token} {ts us : List Token} {binding : BindingKind} {name : Ident}
      {type : Option TypeRef} {value : Expr} (ht : t.keyword? = some binding.keyword)
      (hn : name.Written u) (hy : TypeRef.AnnotationWritten type ts) (hv : v.kind = .assign)
      (he : rules.value s .group value us) :
      VarDecl.Written ⟨binding, name, type, value, Token.spanOf (t :: u :: (ts ++ v :: us))⟩
        (t :: u :: (ts ++ v :: us))

inductive VarDecl.InitWritten : List VarDecl → List Token → Prop
  | nil : InitWritten [] []
  | cons {d : VarDecl} {ds : List VarDecl} {t : Token} {ts us : List Token}
      (hd : d.Written rules s.head ts) (ht : t.kind = .semicolon) (hds : InitWritten ds us) :
      InitWritten (d :: ds) (ts ++ t :: us)

inductive ForHead.Written : ForHead → List Token → Prop
  | iterate {t u : Token} {ts : List Token} {name : Ident} {iterable : Expr}
      (hn : name.Written t) (hw : Parser.isBindingWord t.keyword? = false)
      (hu : u.keyword? = some .inWord) (hi : rules.value s.head .group iterable ts) :
      ForHead.Written (.iterate none name iterable) (t :: u :: ts)
  | indexed {t c v u : Token} {ts : List Token} {index name : Ident} {iterable : Expr}
      (hx : index.Written t) (hw : Parser.isBindingWord t.keyword? = false) (hc : c.kind = .comma)
      (hn : name.Written v) (hu : u.keyword? = some .inWord)
      (hi : rules.value s.head .group iterable ts) :
      ForHead.Written (.iterate (some index) name iterable) (t :: c :: v :: u :: ts)
  | init {init : List VarDecl} {ts : List Token} (hd : VarDecl.InitWritten rules s init ts) :
      ForHead.Written (.counted init none) ts
  | counted {init : List VarDecl} {condition : Expr} {ts us : List Token}
      (hd : VarDecl.InitWritten rules s init ts)
      (hc : rules.expr s.head .group condition us) :
      ForHead.Written (.counted init (some condition)) (ts ++ us)

inductive ForStmt.Written : ForStmt → List Token → Prop
  | mk {t : Token} {ts us : List Token} {head : ForHead} {body : Block}
      (ht : t.keyword? = some .forWord) (hh : head.Written rules s ts)
      (hb : body.Written rules us) :
      ForStmt.Written ⟨head, body, Token.spanOf (t :: (ts ++ us))⟩ (t :: (ts ++ us))

inductive CaseBody.Written : CaseBody → List Token → Prop
  | arrow {t : Token} {ts : List Token} {statement : Statement} (ht : t.kind = .arrow)
      (hs : rules.statement s statement ts) : CaseBody.Written (.arrow statement) (t :: ts)
  | block {ts : List Token} {body : Block} (hb : body.Written rules ts) :
      CaseBody.Written (.block body) ts

inductive WhenCase.Written : WhenCase → List Token → Prop
  | mk {t : Token} {ts us : List Token} {pattern : Expr} {body : CaseBody}
      (ht : t.keyword? = some .isWord) (hp : rules.expr .pattern .pair pattern ts)
      (hc : pattern.Closes .pattern .pair us) (hb : body.Written rules s us) :
      WhenCase.Written ⟨pattern, body, Token.spanOf (t :: (ts ++ us))⟩ (t :: (ts ++ us))

/-- The last case of a `when`, if there is one, and the closing brace. -/
inductive CaseBody.ElseWritten : Option CaseBody → List Token → Prop
  | none {t : Token} (ht : t.kind = .closeBrace) : ElseWritten none [t]
  | some {t u : Token} {ts : List Token} {body : CaseBody} (ht : t.keyword? = some .elseWord)
      (hb : body.Written rules .item ts) (hu : u.kind = .closeBrace) :
      ElseWritten (some body) (t :: (ts ++ [u]))
  | separated {t u v : Token} {ts : List Token} {body : CaseBody}
      (ht : t.keyword? = some .elseWord) (hb : body.Written rules .item ts)
      (hv : v.kind = .semicolon) (hu : u.kind = .closeBrace) :
      ElseWritten (some body) (t :: (ts ++ [v, u]))

/-- The cases of a `when` with its `else` case and its closing brace. -/
inductive WhenCase.EachWritten (elseBody : Option CaseBody) : List WhenCase → List Token → Prop
  | done {ts : List Token} (hl : CaseBody.ElseWritten rules elseBody ts) :
      EachWritten elseBody [] ts
  | separated {c : WhenCase} {cs : List WhenCase} {t : Token} {ts us : List Token}
      (hc : c.Written rules .item ts) (he : c.body.EndsBefore .item (t :: us))
      (ht : t.kind = .semicolon) (hcs : EachWritten elseBody cs us) :
      EachWritten elseBody (c :: cs) (ts ++ t :: us)
  | unseparated {c : WhenCase} {cs : List WhenCase} {t : Token} {ts us : List Token}
      (hc : c.Written rules .item ts) (he : c.body.EndsBefore .item (t :: us))
      (ht : t.kind ≠ .semicolon) (hb : t.kind = .closeBrace ∨ t.newlineBefore = true)
      (hcs : EachWritten elseBody cs (t :: us)) : EachWritten elseBody (c :: cs) (ts ++ t :: us)

inductive WhenStmt.Written : WhenStmt → List Token → Prop
  | mk {t u : Token} {ts us vs : List Token} {init : List VarDecl} {subject : Expr}
      {cases : List WhenCase} {elseBody : Option CaseBody} (ht : t.keyword? = some .whenWord)
      (hi : VarDecl.InitWritten rules s init ts) (hs : rules.expr s.head .group subject us)
      (hu : u.kind = .openBrace) (hc : WhenCase.EachWritten rules elseBody cases vs) :
      WhenStmt.Written
        ⟨init, subject, cases, elseBody, Token.spanOf (t :: (ts ++ (us ++ u :: vs)))⟩
        (t :: (ts ++ (us ++ u :: vs)))

/-- What stands where a value is expected. -/
inductive Expr.ValueWritten (min : Strength) : Expr → List Token → Prop
  | ifExpr {stmt : IfStmt} {ts : List Token} (hs : stmt.Written rules s ts) :
      ValueWritten min ⟨.ifExpr stmt, Token.spanOf ts⟩ ts
  | whenExpr {stmt : WhenStmt} {ts : List Token} (hs : stmt.Written rules s ts) :
      ValueWritten min ⟨.whenExpr stmt, Token.spanOf ts⟩ ts
  | expr {e : Expr} {ts : List Token} (he : e.Written rules s min ts) : ValueWritten min e ts

end Script
