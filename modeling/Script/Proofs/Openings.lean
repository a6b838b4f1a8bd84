import Script.Proofs.Ends
import Script.Rules.Statement

/-!
How parts of a program begin. Every part takes at least one token. The first token of an expression
is no word that introduces something else, and a word at its front is followed by no second word, no
comma and no brace, so a reader that looks one token ahead never takes it for a declaration or for
the head of a loop.
-/
namespace Script

variable {rules : Rules} {s : Surroundings} {min : Strength} {t : Token} {ts us : List Token}

theorem Token.kind_of_keyword? {w : Keyword} (h : t.keyword? = some w) : t.kind = .ident := by
  unfold Token.keyword? at h
  split at h
  · assumption
  · cases h

/-- The kinds with which an operand may begin. Every statement begins with one of them. -/
def TokenKind.Begins (k : TokenKind) : Prop :=
  k ≠ .closeParen ∧ k ≠ .closeBrace ∧ k ≠ .closeBracket ∧ k ≠ .comma ∧ k ≠ .semicolon ∧
    k ≠ .colon ∧ k ≠ .assign ∧ k ≠ .arrow ∧ k ≠ .endOfText

instance : DecidablePred TokenKind.Begins := fun k => by
  unfold TokenKind.Begins
  infer_instance

/-- Some tokens are there, and the first of them may begin an operand. -/
def Begin (ts : List Token) : Prop := ∃ t us, ts = t :: us ∧ t.kind.Begins

/-- What may follow the first token of an expression where that token is a word. -/
def AfterWord (us : List Token) : Prop :=
  ∀ u ∈ us.head?, u.kind ≠ .ident ∧ u.kind ≠ .comma ∧ u.kind ≠ .openBrace

/-- The tokens of an expression. -/
structure Opens (ts : List Token) : Prop where
  begin : Begin ts
  word : ∀ t ∈ ts.head?, ∀ w, t.keyword? = some w →
    w.isSoft = true ∨ (Parser.literalWord? w).isSome = true
  after : ∀ t ∈ ts.head?, t.kind = .ident → AfterWord ts.tail

theorem Begin.ne_nil (h : Begin ts) : ts ≠ [] := by
  obtain ⟨t, us, rfl, -⟩ := h
  simp

theorem begin_cons (h : t.kind.Begins) : Begin (t :: ts) := ⟨t, ts, rfl, h⟩

theorem begin_word (h : t.kind = .ident) : Begin (t :: ts) :=
  begin_cons (by rw [h]; decide)

theorem begin_keyword {w : Keyword} (h : t.keyword? = some w) : Begin (t :: ts) :=
  begin_word (Token.kind_of_keyword? h)

theorem Begin.append (h : Begin ts) (us : List Token) : Begin (ts ++ us) := by
  obtain ⟨t, vs, rfl, hk⟩ := h
  exact begin_cons hk

theorem Name.Written.begin {n : Name} (h : n.Written ts) : Begin ts := by
  cases h with
  | absolute hi => exact begin_word hi.kind
  | relative hd => exact begin_cons (by rw [hd]; decide)

theorem Name.Written.ne_nil {n : Name} (h : n.Written ts) : ts ≠ [] := h.begin.ne_nil

theorem Ident.MoreWritten.kinds {is : List Ident} (h : Ident.MoreWritten is ts) :
    ∀ t ∈ ts, t.kind = .ident ∨ t.kind = .dot := by
  induction h with
  | nil => simp
  | cons hd _ hi _ ih =>
    simp only [Parser.continuesWith, Bool.and_eq_true, beq_iff_eq] at hd
    exact List.forall_mem_cons.2 ⟨.inr hd.1, List.forall_mem_cons.2 ⟨.inl hi.kind, ih⟩⟩

/-- A name is made of words and points. -/
theorem Name.Written.kinds {n : Name} (h : n.Written ts) :
    ∀ t ∈ ts, t.kind = .ident ∨ t.kind = .dot := by
  cases h with
  | absolute hi his => exact List.forall_mem_cons.2 ⟨.inl hi.kind, his.kinds⟩
  | relative hd hi his =>
    exact List.forall_mem_cons.2 ⟨.inr hd, List.forall_mem_cons.2 ⟨.inl hi.kind, his.kinds⟩⟩

theorem ListWritten.ne_nil {α : Type} {separators : List TokenKind} {close : TokenKind}
    {written : α → List Token → Prop} {ends : List Token → α → Prop} {as : List α}
    (h : ListWritten separators close written ends as ts) : ts ≠ [] := by
  cases h <;> simp

/-- An opening token that is no word. -/
theorem opens_cons (hb : t.kind.Begins) (hk : t.kind ≠ .ident) : Opens (t :: ts) where
  begin := begin_cons hb
  word u hu w hw := by
    obtain rfl : t = u := by simpa using hu
    exact absurd (Token.kind_of_keyword? hw) hk
  after u hu hword := by
    obtain rfl : t = u := by simpa using hu
    exact absurd hword hk

theorem Expr.OperandWritten.opens {e : Expr} (h : e.OperandWritten rules s ts) : Opens ts := by
  cases h with
  | @unary op t ts operand ht ho =>
    cases hk : t.kind <;> rw [hk] at ht <;> cases ht
    all_goals exact opens_cons (by rw [hk]; decide) (by simp [hk])
  | @word t w literal ht hl =>
    refine ⟨begin_keyword ht, fun u hu w' hw => ?_, fun u _ _ v hv => ?_⟩
    · obtain rfl : t = u := by simpa using hu
      obtain rfl : w = w' := by simpa [ht] using hw
      exact .inr (by simp [hl])
    · simp at hv
  | name hn =>
    refine ⟨hn.name.begin, fun t ht w hw => .inl (hn.free t ht w hw).2, fun t ht hk => ?_⟩
    cases hn.name with
    | @absolute u i is us hi his =>
      cases his with
      | nil => intro v hv; simp at hv
      | cons hd =>
        intro v hv
        obtain rfl := Option.some.inj hv
        simp only [Parser.continuesWith, Bool.and_eq_true, beq_iff_eq] at hd
        simp [hd.1]
    | relative hd =>
      obtain rfl := Option.some.inj ht
      simp [hd] at hk
  | number ht => exact opens_cons (by simp [ht, TokenKind.Begins]) (by simp [ht])
  | @string t literal ht hl =>
    cases hk : t.kind <;> rw [hk] at ht <;> cases ht
    all_goals exact opens_cons (by rw [hk]; decide) (by simp [hk])
  | group ht => exact opens_cons (by rw [ht]; decide) (by simp [ht])
  | array ht => exact opens_cons (by rw [ht]; decide) (by simp [ht])
  | object ht => exact opens_cons (by rw [ht]; decide) (by simp [ht])

/-- An operator is no word, no comma and no brace. -/
theorem Applies.afterWord {o : Operator} (h : Applies s min t o) : AfterWord (t :: ts) := by
  intro u hu
  obtain rfl : t = u := by simpa using hu
  have ho := h.operator
  refine ⟨?_, ?_, ?_⟩ <;>
  · intro hk
    rw [hk] at ho
    cases ho

theorem Expr.Written.opens {e : Expr} (h : e.Written rules s min ts) : Opens ts := by
  induction h with
  | operand he => exact he.opens
  | @extend left e o t ts us hl hle ho he ih =>
    obtain ⟨u, vs, rfl, hu⟩ := ih.begin
    refine ⟨ih.begin.append _, ih.word, fun v hv hk => ?_⟩
    cases vs with
    | nil => exact ho.afterWord
    | cons w ws => exact fun x hx => ih.after v hv hk x hx

/-- In the head of a construct no expression begins with a brace. -/
theorem Expr.Written.not_brace {e : Expr} (h : e.Written rules s min ts)
    (hs : s.brace = .expectBlock) : ∀ t ∈ ts.head?, t.kind ≠ .openBrace := by
  induction h with
  | operand he =>
    intro t ht hk
    cases he with
    | unary hop =>
      obtain rfl := Option.some.inj ht
      rw [hk] at hop
      cases hop
    | word hw =>
      obtain rfl := Option.some.inj ht
      simp [Token.keyword?, hk] at hw
    | name hn =>
      cases hn.name with
      | absolute hi =>
        obtain rfl := Option.some.inj ht
        exact absurd hi.kind (by simp [hk])
      | relative hd =>
        obtain rfl := Option.some.inj ht
        simp [hk] at hd
    | number hn =>
      obtain rfl := Option.some.inj ht
      simp [hk] at hn
    | string hstr =>
      obtain rfl := Option.some.inj ht
      simp [hk, TokenKind.isString] at hstr
    | group ho =>
      obtain rfl := Option.some.inj ht
      simp [hk] at ho
    | array ho =>
      obtain rfl := Option.some.inj ht
      simp [hk] at ho
    | object _ hv => simp [hs] at hv
  | @extend left e o t ts us hl hle ho he ih =>
    obtain ⟨u, vs, rfl, -⟩ := hl.opens.begin
    exact ih

theorem IfStmt.Written.begin {stmt : IfStmt} (h : stmt.Written rules s ts) : Begin ts := by
  cases h with
  | mk ht => exact begin_keyword ht

theorem WhenStmt.Written.begin {stmt : WhenStmt} (h : stmt.Written rules s ts) : Begin ts := by
  cases h with
  | mk ht => exact begin_keyword ht

theorem Expr.ValueWritten.begin {e : Expr} (h : e.ValueWritten rules s min ts) : Begin ts := by
  cases h with
  | ifExpr hs => exact hs.begin
  | whenExpr hs => exact hs.begin
  | expr he => exact he.opens.begin

theorem VarDecl.Written.begin {d : VarDecl} (h : d.Written rules s ts) : Begin ts := by
  cases h with
  | mk ht => exact begin_keyword ht

theorem Block.Written.begin {b : Block} (h : b.Written rules ts) : Begin ts := by
  cases h with
  | mk ht => exact begin_cons (by rw [ht]; decide)

theorem StatementKind.Written.begin {k : StatementKind} (h : k.Written rules s ts) : Begin ts := by
  cases h with
  | modDecl ht => exact begin_keyword ht
  | useDecl hd => cases hd with | mk ht => exact begin_keyword ht
  | importDecl hd => cases hd with
    | plain ht => exact begin_keyword ht
    | call ht => exact begin_keyword ht
  | varDecl hd => exact hd.begin
  | fnDecl hd => cases hd with | mk ht => exact begin_keyword ht
  | nodeDecl hd => cases hd with | mk ht => exact begin_keyword ht
  | assign hn => exact hn.name.begin.append _
  | ifStmt hs => exact hs.begin
  | forStmt hs => cases hs with | mk ht => exact begin_keyword ht
  | whenStmt hs => exact hs.begin
  | uiBlock ht => exact begin_keyword ht
  | styleBlock ht => exact begin_keyword ht
  | typeDecl hd => cases hd with | mk ht => exact begin_keyword ht
  | enumDecl hd => cases hd with | mk ht => exact begin_keyword ht
  | breakStmt ht => exact begin_keyword ht
  | expr he => exact he.opens.begin

theorem Statement.Written.begin {st : Statement} (h : st.Written rules s ts) : Begin ts := by
  cases h with
  | mk hk => exact hk.begin

theorem WhenCase.Written.begin {c : WhenCase} (h : c.Written rules s ts) : Begin ts := by
  cases h with
  | mk ht => exact begin_keyword ht

theorem Param.Written.begin {p : Param} (h : p.Written ts) : Begin ts := by
  cases h with
  | mk hn => exact begin_word hn.kind

theorem Property.Written.begin {p : Property} (h : p.Written ts) : Begin ts := by
  cases h with
  | mk hn => exact hn.begin.append _

theorem FieldDecl.Written.begin {d : FieldDecl} (h : d.Written ts) : Begin ts := by
  cases h with
  | mk hn => exact begin_word hn.kind

theorem EnumMember.Written.begin {m : EnumMember} (h : m.Written rules s ts) : Begin ts := by
  cases h with
  | plain hn => exact begin_word hn.kind
  | assigned hn => exact begin_word hn.kind

theorem WhenCase.EachWritten.ne_nil {o : Option CaseBody} {xs : List WhenCase}
    (h : WhenCase.EachWritten rules o xs ts) : ts ≠ [] := by
  cases h with
  | done hl => cases hl <;> simp
  | separated => simp
  | unseparated => simp

/-- What is nested inside a construct begins as expressions, values and statements do. -/
structure Rules.Opening (rules : Rules) : Prop where
  expr : ∀ {s min e ts}, rules.expr s min e ts → Opens ts
  value : ∀ {s min e ts}, rules.value s min e ts → Begin ts
  statement : ∀ {s st ts}, rules.statement s st ts → Begin ts
  head : ∀ {s min e ts}, rules.expr s min e ts → s.brace = .expectBlock →
    ∀ t ∈ ts.head?, t.kind ≠ .openBrace

theorem Rules.level_opening : ∀ n, (Rules.level n).Opening
  | 0 => ⟨False.elim, False.elim, False.elim, False.elim⟩
  | _ + 1 =>
    ⟨Expr.Written.opens, Expr.ValueWritten.begin, Statement.Written.begin, Expr.Written.not_brace⟩

theorem Statement.EntryWritten.begin (hr : rules.Opening) {st : Statement}
    (h : st.EntryWritten rules s ts) : Begin ts := by
  cases h with
  | ifStmt hs => exact hs.begin
  | pair he => exact (hr.expr he).begin

end Script
