import Script.Rules.Control

/-!
How declarations and statements are written.
-/
namespace Script

variable (rules : Rules) (s : Surroundings)

/-- Names after the first of a list, each with the comma before it. -/
inductive Name.MoreWritten : List Name → List Token → Prop
  | nil : MoreWritten [] []
  | cons {t : Token} {n : Name} {ns : List Name} {ts us : List Token} (ht : t.kind = .comma)
      (hn : n.Written ts) (hns : MoreWritten ns us) :
      MoreWritten (n :: ns) (t :: (ts ++ us))

inductive UseDecl.SubsWritten : List Name → List Token → Prop
  | nil : SubsWritten [] []
  | cons {t : Token} {n : Name} {ns : List Name} {ts us : List Token}
      (ht : Parser.continuesWith .colon t = true) (hn : n.Written ts)
      (hns : Name.MoreWritten ns us) : SubsWritten (n :: ns) (t :: (ts ++ us))

inductive UseDecl.Written : UseDecl → List Token → Prop
  | mk {t : Token} {ts us : List Token} {path : Name} {subs : List Name}
      (ht : t.keyword? = some .useWord) (hp : path.Written ts)
      (hs : UseDecl.SubsWritten subs us) :
      UseDecl.Written ⟨path, subs, Token.spanOf (t :: (ts ++ us))⟩ (t :: (ts ++ us))

inductive ImportDecl.Written : ImportDecl → List Token → Prop
  | plain {t : Token} {ts : List Token} {path : Name} (ht : t.keyword? = some .importWord)
      (hp : path.Written ts) :
      ImportDecl.Written ⟨path, none, Token.spanOf (t :: ts)⟩ (t :: ts)
  | call {t u : Token} {ts us : List Token} {path : Name} {args : List Expr}
      (ht : t.keyword? = some .importWord) (hp : path.Written ts)
      (hu : Parser.continuesWith .openParen u = true)
      (ha : ListWritten [.comma] .closeParen (rules.expr .item .group)
        (Expr.Closes .item .group) args us) :
      ImportDecl.Written ⟨path, some args, Token.spanOf (t :: (ts ++ u :: us))⟩
        (t :: (ts ++ u :: us))

inductive Param.Written : Param → List Token → Prop
  | mk {t : Token} {ts : List Token} {name : Ident} {type : Option TypeRef}
      (hn : name.Written t) (ht : TypeRef.AnnotationWritten type ts) :
      Param.Written ⟨name, type, Token.spanOf (t :: ts)⟩ (t :: ts)

inductive Property.Written : Property → List Token → Prop
  | mk {ts us : List Token} {name : Name} {type : Option TypeRef} (hn : name.Written ts)
      (ht : TypeRef.AnnotationWritten type us) :
      Property.Written ⟨name, type, Token.spanOf (ts ++ us)⟩ (ts ++ us)

inductive FnBody.Written : FnBody → List Token → Prop
  | expr {t : Token} {ts : List Token} {e : Expr} (ht : t.kind = .assign)
      (he : rules.expr s .group e ts) : FnBody.Written (.expr e) (t :: ts)
  | block {ts : List Token} {body : Block} (hb : body.Written rules ts) :
      FnBody.Written (.block body) ts

inductive FnDecl.Written : FnDecl → List Token → Prop
  | mk {t u : Token} {ts us vs ws : List Token} {name : Name} {params : List Param}
      {result : Option TypeRef} {body : FnBody} (ht : t.keyword? = some .fnWord)
      (hn : name.Written ts) (hu : u.kind = .openParen)
      (hp : ListWritten [.comma] .closeParen Param.Written Param.EndsBefore params us)
      (hr : TypeRef.AnnotationWritten result vs) (hb : body.Written rules s ws) :
      FnDecl.Written
        ⟨name, params, result, body, Token.spanOf (t :: (ts ++ u :: (us ++ (vs ++ ws))))⟩
        (t :: (ts ++ u :: (us ++ (vs ++ ws))))

/-- An entry of a node: a pair or an `if`. -/
inductive Statement.EntryWritten : Statement → List Token → Prop
  | ifStmt {stmt : IfStmt} {ts : List Token} (hs : stmt.Written rules s ts) :
      EntryWritten ⟨.ifStmt stmt, Token.spanOf ts⟩ ts
  | pair {e : Expr} {ts : List Token} (he : rules.expr s .group e ts)
      (hp : Parser.isPair e = true) : EntryWritten ⟨.expr e, e.span⟩ ts

inductive NodeDecl.BodyWritten : Option (List Statement) → List Token → Prop
  | none : BodyWritten none []
  | some {t : Token} {ts : List Token} {entries : List Statement}
      (ht : Parser.continuesWith .openBrace t = true)
      (he : ListWritten [.comma] .closeBrace (Statement.EntryWritten rules .item)
        (Statement.EntryEndsBefore .item) entries ts) : BodyWritten (some entries) (t :: ts)

inductive NodeDecl.Written : NodeDecl → List Token → Prop
  | mk {t u : Token} {ts us vs : List Token} {name : Name} {props : List Property}
      {body : Option (List Statement)} (ht : t.keyword? = some .nodeWord) (hn : name.Written ts)
      (hu : u.kind = .openParen)
      (hp : ListWritten [.comma] .closeParen Property.Written Property.EndsBefore props us)
      (hb : NodeDecl.BodyWritten rules body vs) :
      NodeDecl.Written ⟨name, props, body, Token.spanOf (t :: (ts ++ u :: (us ++ vs)))⟩
        (t :: (ts ++ u :: (us ++ vs)))

inductive FieldDecl.Written : FieldDecl → List Token → Prop
  | mk {t u : Token} {ts : List Token} {name : Ident} {type : TypeRef} (hn : name.Written t)
      (hu : u.kind = .colon) (ht : type.Written ts) :
      FieldDecl.Written ⟨name, type, Token.spanOf (t :: u :: ts)⟩ (t :: u :: ts)

inductive TypeDecl.Written : TypeDecl → List Token → Prop
  | mk {t u v : Token} {ts : List Token} {name : Ident} {fields : List FieldDecl}
      (ht : t.keyword? = some .typeWord) (hn : name.Written u) (hv : v.kind = .openBrace)
      (hf : ListWritten [.comma, .semicolon] .closeBrace FieldDecl.Written FieldDecl.EndsBefore
        fields ts) :
      TypeDecl.Written ⟨name, fields, Token.spanOf (t :: u :: v :: ts)⟩ (t :: u :: v :: ts)

inductive EnumMember.Written : EnumMember → List Token → Prop
  | plain {t : Token} {name : Ident} (hn : name.Written t) :
      EnumMember.Written ⟨name, none, Token.spanOf [t]⟩ [t]
  | assigned {t u : Token} {ts : List Token} {name : Ident} {value : Expr} (hn : name.Written t)
      (hu : u.kind = .assign) (hv : rules.expr s .group value ts) :
      EnumMember.Written ⟨name, some value, Token.spanOf (t :: u :: ts)⟩ (t :: u :: ts)

inductive EnumDecl.Written : EnumDecl → List Token → Prop
  | mk {t u v : Token} {ts : List Token} {name : Ident} {members : List EnumMember}
      (ht : t.keyword? = some .enumWord) (hn : name.Written u) (hv : v.kind = .openBrace)
      (hm : ListWritten [.comma, .semicolon] .closeBrace (EnumMember.Written rules .item)
        (EnumMember.EndsBefore .item) members ts) :
      EnumDecl.Written ⟨name, members, Token.spanOf (t :: u :: v :: ts)⟩ (t :: u :: v :: ts)

inductive StatementKind.Written : StatementKind → List Token → Prop
  | modDecl {t : Token} {ts us : List Token} {name : Name} {body : Block}
      (ht : t.keyword? = some .modWord) (hl : Continues .ident ts) (hn : name.Written ts)
      (hb : body.Written rules us) : StatementKind.Written (.modDecl name body) (t :: (ts ++ us))
  | useDecl {decl : UseDecl} {ts : List Token} (hd : decl.Written ts)
      (hl : Continues .ident ts.tail) : StatementKind.Written (.useDecl decl) ts
  | importDecl {decl : ImportDecl} {ts : List Token} (hd : decl.Written rules ts)
      (hl : Continues .ident ts.tail) : StatementKind.Written (.importDecl decl) ts
  | varDecl {decl : VarDecl} {ts : List Token} (hd : decl.Written rules s ts) :
      StatementKind.Written (.varDecl decl) ts
  | fnDecl {decl : FnDecl} {ts : List Token} (hd : decl.Written rules s ts) :
      StatementKind.Written (.fnDecl decl) ts
  | nodeDecl {decl : NodeDecl} {ts : List Token} (hd : decl.Written rules ts)
      (hl : Continues .ident ts.tail) : StatementKind.Written (.nodeDecl decl) ts
  | assign {target : Name} {t : Token} {ts us : List Token} {value : Expr}
      (hn : target.WrittenOperand ts) (ht : t.kind = .assign)
      (hv : rules.value s .group value us) :
      StatementKind.Written (.assign target value) (ts ++ t :: us)
  | ifStmt {stmt : IfStmt} {ts : List Token} (hs : stmt.Written rules s ts) :
      StatementKind.Written (.ifStmt stmt) ts
  | forStmt {stmt : ForStmt} {ts : List Token} (hs : stmt.Written rules s ts) :
      StatementKind.Written (.forStmt stmt) ts
  | whenStmt {stmt : WhenStmt} {ts : List Token} (hs : stmt.Written rules s ts) :
      StatementKind.Written (.whenStmt stmt) ts
  | uiBlock {t : Token} {ts : List Token} {body : Block} (ht : t.keyword? = some .uiWord)
      (hl : Continues .openBrace ts) (hb : body.Written rules ts) :
      StatementKind.Written (.uiBlock body) (t :: ts)
  | styleBlock {t : Token} {ts : List Token} {body : Block} (ht : t.keyword? = some .styleWord)
      (hl : Continues .openBrace ts) (hb : body.Written rules ts) :
      StatementKind.Written (.styleBlock body) (t :: ts)
  | typeDecl {decl : TypeDecl} {ts : List Token} (hd : decl.Written ts)
      (hl : Continues .ident ts.tail) : StatementKind.Written (.typeDecl decl) ts
  | enumDecl {decl : EnumDecl} {ts : List Token} (hd : decl.Written rules ts)
      (hl : Continues .ident ts.tail) : StatementKind.Written (.enumDecl decl) ts
  | breakStmt {t : Token} (ht : t.keyword? = some .breakWord) :
      StatementKind.Written .breakStmt [t]
  | expr {e : Expr} {ts : List Token} (he : e.Written rules s .group ts) :
      StatementKind.Written (.expr e) ts

inductive Statement.Written : Statement → List Token → Prop
  | mk {kind : StatementKind} {ts : List Token} (hk : kind.Written rules s ts) :
      Statement.Written ⟨kind, Token.spanOf ts⟩ ts

/-- The rules for what is nested at most `n` levels deep. -/
def Rules.level : Nat → Rules
  | 0 => ⟨fun _ _ _ _ => False, fun _ _ _ _ => False, fun _ _ _ => False⟩
  | n + 1 => {
      expr := fun s min e ts => e.Written (level n) s min ts
      value := fun s min e ts => e.ValueWritten (level n) s min ts
      statement := fun s st ts => st.Written (level n) s ts }

/-- A program is written as its statements and the end token. -/
structure Program.Written (p : Program) (ts : List Token) : Prop where
  statements : ∃ n, ListWritten [.semicolon] .endOfText ((Rules.level n).statement .item)
    (Statement.EndsBefore .item) p.statements ts
  span : p.span = ⟨0, max ((ts.getLast?.map Token.stop).getD 0) ((ts.head?.map Token.start).getD 0)⟩

end Script
