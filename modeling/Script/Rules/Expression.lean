import Script.Rules.Names

/-!
How expressions are written. Expressions and statements contain each other, so the rules for what is
nested inside a construct are handed to it as a value, as the parsers are.
-/
namespace Script

/-- The rules for what is nested inside a construct. -/
structure Rules where
  expr : Surroundings → Strength → Expr → List Token → Prop
  value : Surroundings → Strength → Expr → List Token → Prop
  statement : Surroundings → Statement → List Token → Prop

variable (rules : Rules) (s : Surroundings)

inductive Block.Written : Block → List Token → Prop
  | mk {t : Token} {ts : List Token} {statements : List Statement} (ht : t.kind = .openBrace)
      (hs : ListWritten [.semicolon] .closeBrace (rules.statement .item)
        (Statement.EndsBefore .item) statements ts) :
      Block.Written ⟨statements, Token.spanOf (t :: ts)⟩ (t :: ts)

/-- The part of a literal that a piece of its token stands for. -/
inductive StringPart.Written : Piece → StringPart → Prop
  | text {text : String} : StringPart.Written (.text text) (.text text)
  | nameHole {h : RawHole} {n : Name} {ts : List Token} {last : Token} (hk : h.kind = .name)
      (hl : Lexed.ofString h.start h.text = ⟨ts, .ok last⟩) (hn : n.Written ts) :
      StringPart.Written (.hole h) (.nameHole n)
  | exprHole {h : RawHole} {e : Expr} {ts : List Token} {last : Token} (hk : h.kind = .expr)
      (hl : Lexed.ofString h.start h.text = ⟨ts, .ok last⟩)
      (he : rules.value .grouped .group e ts) : StringPart.Written (.hole h) (.exprHole e)

inductive StringPart.EachWritten : List Piece → List StringPart → Prop
  | nil : EachWritten [] []
  | cons {x : Piece} {p : StringPart} {xs : List Piece} {ps : List StringPart}
      (hp : p.Written rules x) (hps : EachWritten xs ps) : EachWritten (x :: xs) (p :: ps)

inductive StringLiteral.Written : StringLiteral → Token → Prop
  | mk {t : Token} {decoded : Decoded} {parts : List StringPart}
      (hd : decode t.text t.start = .ok decoded)
      (hp : StringPart.EachWritten rules decoded.pieces parts) :
      StringLiteral.Written ⟨decoded.form, parts, t.span⟩ t

/-- A name where an operand stands: it begins with no word that has another meaning there. -/
structure Name.WrittenOperand (n : Name) (ts : List Token) : Prop where
  name : n.Written ts
  free : ∀ t ∈ ts.head?, ∀ word, t.keyword? = some word →
    Parser.literalWord? word = none ∧ word.isSoft = true

inductive Expr.OperandWritten : Expr → List Token → Prop
  | unary {op : UnaryOp} {t : Token} {ts : List Token} {operand : Expr}
      (ht : UnaryOp.ofKind? t.kind = some op) (ho : rules.expr s .unary operand ts) :
      OperandWritten ⟨.unary op operand, t.span.cover operand.span⟩ (t :: ts)
  | word {t : Token} {word : Keyword} {literal : Literal} (ht : t.keyword? = some word)
      (hl : Parser.literalWord? word = some literal) :
      OperandWritten ⟨.literal literal, t.span⟩ [t]
  | name {n : Name} {ts : List Token} (hn : n.WrittenOperand ts) :
      OperandWritten ⟨.name n, n.span⟩ ts
  | number {t : Token} {kind : NumberKind} (ht : t.kind = .number kind) :
      OperandWritten ⟨.literal (.number kind t.text), t.span⟩ [t]
  | string {t : Token} {literal : StringLiteral} (ht : t.kind.isString = true)
      (hl : literal.Written rules t) : OperandWritten ⟨.literal (.string literal), t.span⟩ [t]
  | group {t u : Token} {ts : List Token} {inner : Expr} (ht : t.kind = .openParen)
      (hi : rules.expr .grouped .group inner ts) (hu : u.kind = .closeParen) :
      OperandWritten ⟨.group inner, Token.spanOf (t :: (ts ++ [u]))⟩ (t :: (ts ++ [u]))
  | array {t : Token} {ts : List Token} {items : List Expr} (ht : t.kind = .openBracket)
      (hi : ListWritten [.comma] .closeBracket (rules.value .item .group)
        (Expr.ClosesValue .item .group) items ts) :
      OperandWritten ⟨.array items, Token.spanOf (t :: ts)⟩ (t :: ts)
  | object {t : Token} {ts : List Token} {entries : List Statement} (ht : t.kind = .openBrace)
      (hs : s.brace = .expectValue)
      (he : ListWritten [.comma] .closeBrace (rules.statement .item)
        (Statement.EndsBefore .item) entries ts) :
      OperandWritten ⟨.object entries, Token.spanOf (t :: ts)⟩ (t :: ts)

/-- The block after the arguments of a call, which stands on the line of their parenthesis. -/
inductive Block.TrailingWritten : Option Block → List Token → Prop
  | none : TrailingWritten none []
  | some {body : Block} {ts : List Token} (hs : s.brace = .expectValue)
      (hc : Continues .openBrace ts) (hb : body.Written rules ts) : TrailingWritten (some body) ts

/-- What an operator builds of its left side and of the tokens from the operator on. -/
inductive Expr.Extends (left : Expr) (o : Operator) : List Token → Expr → Prop
  | binary {op : BinaryOp} {t : Token} {ts : List Token} {right : Expr} (ho : o.op = .binary op)
      (hr : rules.expr s o.rightMin right ts) :
      Extends left o (t :: ts) ⟨.binary op o.assoc left right, left.span.cover right.span⟩
  | comparison {op : CompareOp} {t : Token} {ts : List Token} {right : Expr}
      (ho : o.op = .compare op) (hr : rules.expr s o.rightMin right ts) :
      Extends left o (t :: ts) ⟨.comparison op o.assoc left right, left.span.cover right.span⟩
  | pair {key : PairKey} {t : Token} {ts : List Token} {value : Expr} (ho : o.op = .pair)
      (hk : Parser.pairKey? left = some key) (hv : rules.value s .transition value ts) :
      Extends left o (t :: ts) ⟨.pair key value, left.span.cover value.span⟩
  | transition {source target : Name} {t : Token} {ts : List Token} (ho : o.op = .transition)
      (hs : left.kind = .name source) (ht : target.Written ts) :
      Extends left o (t :: ts) ⟨.transition source target, left.span.cover target.span⟩
  | call {args : List Expr} {body : Option Block} {t : Token} {ts us : List Token}
      (ho : o.op = .call)
      (ha : ListWritten [.comma] .closeParen (rules.expr .item .group)
        (Expr.Closes .item .group) args ts)
      (hb : Block.TrailingWritten rules s body us) :
      Extends left o (t :: (ts ++ us))
        ⟨.call left args body, Token.spanFrom left.span.start (t :: (ts ++ us))⟩

/-- An operand and the operators that go on with it. -/
inductive Expr.Written (min : Strength) : Expr → List Token → Prop
  | operand {e : Expr} {ts : List Token} (he : e.OperandWritten rules s ts) : Written min e ts
  | extend {left e : Expr} {o : Operator} {t : Token} {ts us : List Token}
      (hl : Written min left ts) (hle : left.EndsBefore s (t :: us)) (ho : Applies s min t o)
      (he : Expr.Extends rules s left o (t :: us) e) : Written min e (ts ++ t :: us)

end Script
