import Script.Proofs.Moved.Expression

/-!
Texts side by side. Two texts that say the same differ in where their parts stand. To compare them,
the positions of both are mapped to common ones: all to one where layout does not matter, each to
itself where it does. What holds positions is alike in both texts if it is the same after that.
-/
namespace Script

/-- Maps of the positions of two texts to common ones. Positions that are mapped to the same one
stay together when they are moved by the same distance. -/
structure Places where
  left : Nat → Nat
  right : Nat → Nat
  add : ∀ {i j : Nat} (n : Nat), left i = right j → left (i + n) = right (j + n)
  max : ∀ {i i' j j' : Nat}, left i = right j → left i' = right j' →
    left (Max.max i i') = right (Max.max j j')
  min : ∀ {i i' j j' : Nat}, left i = right j → left i' = right j' →
    left (Min.min i i') = right (Min.min j j')
  total : ∀ i, ∃ j, left i = right j

namespace Places

/-- Every position is like every other. -/
def anywhere : Places where
  left _ := 0
  right _ := 0
  add _ _ := rfl
  max _ _ := rfl
  min _ _ := rfl
  total _ := ⟨0, rfl⟩

/-- Every position is like itself alone. -/
def same : Places where
  left := id
  right := id
  add n h := congrArg (· + n) h
  max := by
    rintro i i' j j' rfl rfl
    rfl
  min := by
    rintro i i' j j' rfl rfl
    rfl
  total i := ⟨i, rfl⟩

end Places

/-- Data that holds positions. -/
class Placed (α : Type) where
  move : (Nat → Nat) → α → α

instance : Placed Span := ⟨Span.move⟩
instance : Placed Token := ⟨Token.move⟩
instance : Placed Ident := ⟨fun f => Ident.mapSpans (Span.move f)⟩
instance : Placed Name := ⟨fun f => Name.mapSpans (Span.move f)⟩
instance : Placed TypeRef := ⟨fun f => TypeRef.mapSpans (Span.move f)⟩
instance : Placed UseDecl := ⟨fun f => UseDecl.mapSpans (Span.move f)⟩
instance : Placed Param := ⟨fun f => Param.mapSpans (Span.move f)⟩
instance : Placed Property := ⟨fun f => Property.mapSpans (Span.move f)⟩
instance : Placed FieldDecl := ⟨fun f => FieldDecl.mapSpans (Span.move f)⟩
instance : Placed TypeDecl := ⟨fun f => TypeDecl.mapSpans (Span.move f)⟩
instance : Placed Expr := ⟨fun f => Expr.mapSpans (Span.move f)⟩
instance : Placed ExprKind := ⟨fun f => ExprKind.mapSpans (Span.move f)⟩
instance : Placed PairKey := ⟨fun f => PairKey.mapSpans (Span.move f)⟩
instance : Placed StringLiteral := ⟨fun f => StringLiteral.mapSpans (Span.move f)⟩
instance : Placed StringPart := ⟨fun f => StringPart.mapSpans (Span.move f)⟩
instance : Placed Block := ⟨fun f => Block.mapSpans (Span.move f)⟩
instance : Placed Statement := ⟨fun f => Statement.mapSpans (Span.move f)⟩
instance : Placed StatementKind := ⟨fun f => StatementKind.mapSpans (Span.move f)⟩
instance : Placed ImportDecl := ⟨fun f => ImportDecl.mapSpans (Span.move f)⟩
instance : Placed VarDecl := ⟨fun f => VarDecl.mapSpans (Span.move f)⟩
instance : Placed FnDecl := ⟨fun f => FnDecl.mapSpans (Span.move f)⟩
instance : Placed FnBody := ⟨fun f => FnBody.mapSpans (Span.move f)⟩
instance : Placed NodeDecl := ⟨fun f => NodeDecl.mapSpans (Span.move f)⟩
instance : Placed EnumDecl := ⟨fun f => EnumDecl.mapSpans (Span.move f)⟩
instance : Placed EnumMember := ⟨fun f => EnumMember.mapSpans (Span.move f)⟩
instance : Placed IfStmt := ⟨fun f => IfStmt.mapSpans (Span.move f)⟩
instance : Placed ElseIf := ⟨fun f => ElseIf.mapSpans (Span.move f)⟩
instance : Placed ForStmt := ⟨fun f => ForStmt.mapSpans (Span.move f)⟩
instance : Placed ForHead := ⟨fun f => ForHead.mapSpans (Span.move f)⟩
instance : Placed WhenStmt := ⟨fun f => WhenStmt.mapSpans (Span.move f)⟩
instance : Placed WhenCase := ⟨fun f => WhenCase.mapSpans (Span.move f)⟩
instance : Placed CaseBody := ⟨fun f => CaseBody.mapSpans (Span.move f)⟩

instance : Placed LexError := ⟨fun f e => ⟨e.fault, e.span.move f⟩⟩
instance : Placed ParseError := ⟨fun f e => ⟨e.fault, e.span.move f⟩⟩
instance : Placed RawHole := ⟨RawHole.move⟩
instance : Placed Piece.Atom := ⟨Piece.Atom.move⟩
instance : Placed Piece := ⟨Piece.move⟩

instance {α : Type} [Placed α] : Placed (List α) := ⟨fun f => List.map (Placed.move f)⟩

instance {α : Type} [Placed α] : Placed (Option α) := ⟨fun f => Option.map (Placed.move f)⟩

instance {α β : Type} [Placed α] [Placed β] : Placed (α × β) :=
  ⟨fun f => Prod.map (Placed.move f) (Placed.move f)⟩

instance {ε α : Type} [Placed ε] [Placed α] : Placed (Except ε α) :=
  ⟨fun f x =>
    match x with
    | .error e => .error (Placed.move f e)
    | .ok a => .ok (Placed.move f a)⟩

instance : Placed Decoded := ⟨fun f d => ⟨d.form, Placed.move f d.pieces⟩⟩
instance : Placed Lexed := ⟨fun f l => ⟨Placed.move f l.tokens, Placed.move f l.last⟩⟩

section Each

variable (f : Span → Span)

theorem ElseIf.mapSpansEach_eq (es : List ElseIf) :
    ElseIf.mapSpansEach f es = es.map (ElseIf.mapSpans f) := by
  induction es with
  | nil => rfl
  | cons e es ih => rw [ElseIf.mapSpansEach, ih, List.map_cons]

theorem VarDecl.mapSpansEach_eq (ds : List VarDecl) :
    VarDecl.mapSpansEach f ds = ds.map (VarDecl.mapSpans f) := by
  induction ds with
  | nil => rfl
  | cons d ds ih => rw [VarDecl.mapSpansEach, ih, List.map_cons]

theorem WhenCase.mapSpansEach_eq (cs : List WhenCase) :
    WhenCase.mapSpansEach f cs = cs.map (WhenCase.mapSpans f) := by
  induction cs with
  | nil => rfl
  | cons c cs ih => rw [WhenCase.mapSpansEach, ih, List.map_cons]

theorem StringPart.mapSpansEach_eq (ps : List StringPart) :
    StringPart.mapSpansEach f ps = ps.map (StringPart.mapSpans f) := by
  induction ps with
  | nil => rfl
  | cons p ps ih => rw [StringPart.mapSpansEach, ih, List.map_cons]

theorem Expr.mapSpansOption_eq (o : Option Expr) :
    Expr.mapSpansOption f o = o.map (Expr.mapSpans f) := by
  cases o <;> rfl

theorem Block.mapSpansOption_eq (o : Option Block) :
    Block.mapSpansOption f o = o.map (Block.mapSpans f) := by
  cases o <;> rfl

theorem CaseBody.mapSpansOption_eq (o : Option CaseBody) :
    CaseBody.mapSpansOption f o = o.map (CaseBody.mapSpans f) := by
  cases o <;> rfl

end Each

attribute [simp] Expr.mapSpansEach_eq Statement.mapSpansEach_eq EnumMember.mapSpansEach_eq
  ElseIf.mapSpansEach_eq VarDecl.mapSpansEach_eq WhenCase.mapSpansEach_eq
  StringPart.mapSpansEach_eq Expr.mapSpansOption_eq Block.mapSpansOption_eq
  CaseBody.mapSpansOption_eq

namespace Places

variable {P : Places}

/-- Data of the first text is like data of the second one. -/
def Like {α : Type} [Placed α] (P : Places) (a b : α) : Prop :=
  Placed.move P.left a = Placed.move P.right b

theorem like_span {a b : Span} :
    P.Like a b ↔ P.left a.start = P.right b.start ∧ P.left a.stop = P.right b.stop := by
  simp [Like, Placed.move, Span.move]

theorem like_token {t u : Token} :
    P.Like t u ↔ t.kind = u.kind ∧ t.text = u.text ∧ P.left t.start = P.right u.start ∧
      t.newlineBefore = u.newlineBefore := by
  simp [Like, Placed.move, Token.move]

theorem Like.cover {a b a' b' : Span} (h : P.Like a b) (h' : P.Like a' b') :
    P.Like (a.cover a') (b.cover b') := by
  rw [like_span] at *
  exact ⟨P.min h.1 h'.1, P.max h.2 h'.2⟩

theorem like_none {α : Type} [Placed α] : P.Like (none : Option α) none := rfl

theorem like_some {α : Type} [Placed α] {a b : α} : P.Like (some a) (some b) ↔ P.Like a b := by
  simp [Like, Placed.move]

theorem like_option {α : Type} [Placed α] {o o' : Option α} (h : P.Like o o') :
    (o = none ∧ o' = none) ∨ ∃ a b, o = some a ∧ o' = some b ∧ P.Like a b := by
  cases o with
  | none =>
    cases o' with
    | none => exact .inl ⟨rfl, rfl⟩
    | some b => cases h
  | some a =>
    cases o' with
    | none => cases h
    | some b => exact .inr ⟨a, b, rfl, rfl, like_some.1 h⟩

theorem like_nil {α : Type} [Placed α] : P.Like ([] : List α) [] := rfl

theorem like_cons {α : Type} [Placed α] {a b : α} {as bs : List α} :
    P.Like (a :: as) (b :: bs) ↔ P.Like a b ∧ P.Like as bs := by
  simp [Like, Placed.move]

theorem like_error {e e' : ParseError} :
    P.Like e e' ↔ e.fault = e'.fault ∧ P.Like e.span e'.span := by
  simp [Like, Placed.move]

theorem like_except {ε α : Type} [Placed ε] [Placed α] {x y : Except ε α} (h : P.Like x y) :
    (∃ a b, x = .ok a ∧ y = .ok b ∧ P.Like a b) ∨
      ∃ e e', x = .error e ∧ y = .error e' ∧ P.Like e e' := by
  cases x with
  | ok a =>
    cases y with
    | ok b => exact .inl ⟨a, b, rfl, rfl, Except.ok.inj h⟩
    | error e => cases h
  | error e =>
    cases y with
    | ok b => cases h
    | error e' => exact .inr ⟨e, e', rfl, rfl, Except.error.inj h⟩

theorem Like.map {ε α β : Type} [Placed ε] [Placed α] [Placed β] {x y : Except ε α} {f g : α → β}
    (h : P.Like x y) (hf : ∀ a b, P.Like a b → P.Like (f a) (g b)) :
    P.Like (f <$> x) (g <$> y) := by
  obtain ⟨a, b, rfl, rfl, hab⟩ | ⟨e, e', rfl, rfl, he⟩ := like_except h
  · exact congrArg Except.ok (hf a b hab)
  · exact congrArg Except.error he

/-- Every span of the first text is like some span of the second one. -/
theorem exists_like_span (P : Places) (a : Span) : ∃ b, P.Like a b := by
  obtain ⟨i, hi⟩ := P.total a.start
  obtain ⟨j, hj⟩ := P.total a.stop
  exact ⟨⟨i, j⟩, like_span.2 ⟨hi, hj⟩⟩

theorem exists_like_token (P : Places) (t : Token) : ∃ u, P.Like t u := by
  obtain ⟨i, hi⟩ := P.total t.start
  exact ⟨{ t with start := i }, like_token.2 ⟨rfl, rfl, hi, rfl⟩⟩

namespace Like

variable {t u : Token}

theorem kind (h : P.Like t u) : t.kind = u.kind := (like_token.1 h).1

theorem text (h : P.Like t u) : t.text = u.text := (like_token.1 h).2.1

theorem start (h : P.Like t u) : P.left t.start = P.right u.start := (like_token.1 h).2.2.1

theorem newline (h : P.Like t u) : t.newlineBefore = u.newlineBefore := (like_token.1 h).2.2.2

theorem stop (h : P.Like t u) : P.left t.stop = P.right u.stop := by
  rw [Token.stop, Token.stop, h.text]
  exact P.add _ h.start

theorem span (h : P.Like t u) : P.Like t.span u.span := like_span.2 ⟨h.start, h.stop⟩

theorem keyword (h : P.Like t u) : t.keyword? = u.keyword? := by
  rw [Token.keyword?, Token.keyword?, h.kind, h.text]

theorem describe (h : P.Like t u) : t.describe = u.describe := by
  rw [Token.describe, Token.describe, h.kind, h.text]

theorem continues (h : P.Like t u) (k : TokenKind) :
    Parser.continuesWith k t = Parser.continuesWith k u := by
  rw [Parser.continuesWith, Parser.continuesWith, h.kind, h.newline]

theorem exprKind {e e' : Expr} (h : P.Like e e') : P.Like e.kind e'.kind := by
  obtain ⟨kind, span⟩ := e
  obtain ⟨kind', span'⟩ := e'
  exact (Expr.mk.inj h).1

theorem nameSpan {x y : Name} (h : P.Like x y) : P.Like x.span y.span :=
  (Name.mk.inj h).2.2

theorem exprSpan {e e' : Expr} (h : P.Like e e') : P.Like e.span e'.span := by
  obtain ⟨kind, span⟩ := e
  obtain ⟨kind', span'⟩ := e'
  exact (Expr.mk.inj h).2

/-- What is a name in one text is one in the other. -/
theorem name_cases {e e' : Expr} (h : P.Like e e') :
    (∃ x y, e.kind = .name x ∧ e'.kind = .name y ∧ P.Like x y) ∨
      (∀ x, e.kind ≠ .name x) ∧ ∀ y, e'.kind ≠ .name y := by
  have hkind := h.exprKind
  generalize e.kind = k at hkind ⊢
  generalize e'.kind = k' at hkind ⊢
  cases k with
  | name x =>
    cases k' with
    | name y => exact .inl ⟨x, y, rfl, rfl, ExprKind.name.inj hkind⟩
    | _ => cases hkind
  | _ =>
    refine .inr ⟨nofun, ?_⟩
    rintro y rfl
    cases hkind

end Like

end Places

end Script
