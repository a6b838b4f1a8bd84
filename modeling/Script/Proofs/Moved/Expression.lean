import Script.Proofs.Moved.Names

/-!
What expressions are written as when their tokens are moved.
-/
namespace Script

/-- What is nested inside a construct may be moved, from the rules of one level to those of another.
-/
structure Rules.Moving (σ : Nat → Nat) (rules rules' : Rules) : Prop where
  ordered : Ordered σ
  expr : ∀ {s min e ts}, rules.expr s min e ts → RigidOn σ ts →
    rules'.expr s min (e.mapSpans (Span.move σ)) (ts.map (Token.move σ))
  value : ∀ {s min e ts}, rules.value s min e ts → RigidOn σ ts →
    rules'.value s min (e.mapSpans (Span.move σ)) (ts.map (Token.move σ))
  statement : ∀ {s st ts}, rules.statement s st ts → RigidOn σ ts →
    rules'.statement s (st.mapSpans (Span.move σ)) (ts.map (Token.move σ))

section Each

variable (f : Span → Span)

theorem Expr.mapSpansEach_eq (es : List Expr) : Expr.mapSpansEach f es = es.map (Expr.mapSpans f) := by
  induction es with
  | nil => rfl
  | cons e es ih => rw [Expr.mapSpansEach, ih, List.map_cons]

theorem Statement.mapSpansEach_eq (ss : List Statement) :
    Statement.mapSpansEach f ss = ss.map (Statement.mapSpans f) := by
  induction ss with
  | nil => rfl
  | cons s ss ih => rw [Statement.mapSpansEach, ih, List.map_cons]

theorem EnumMember.mapSpansEach_eq (ms : List EnumMember) :
    EnumMember.mapSpansEach f ms = ms.map (EnumMember.mapSpans f) := by
  induction ms with
  | nil => rfl
  | cons m ms ih => rw [EnumMember.mapSpansEach, ih, List.map_cons]

theorem Expr.mapSpans_span (e : Expr) : (e.mapSpans f).span = f e.span := by
  cases e
  rfl

theorem Literal.mapSpans_word {word : Keyword} {literal : Literal}
    (h : Parser.literalWord? word = some literal) : literal.mapSpans f = literal := by
  cases word <;> cases h <;> rfl

theorem PairKey.mapSpans_eq {e : Expr} {key : PairKey} (h : Parser.pairKey? e = some key) :
    Parser.pairKey? (e.mapSpans f) = some (key.mapSpans f) := by
  obtain ⟨kind, span⟩ := e
  unfold Parser.pairKey? at h
  split at h
  · rename_i hk
    obtain rfl : kind = _ := hk
    obtain rfl := Option.some.inj h
    rfl
  · rename_i literal hk
    obtain rfl : kind = _ := hk
    obtain ⟨form, parts, span⟩ := literal
    split at h
    · cases h
    · rename_i hform
      obtain rfl := Option.some.inj h
      exact if_neg hform
  · cases h

end Each

variable {σ : Nat → Nat} {rules rules' : Rules} {s : Surroundings} {min : Strength}
  {ts us : List Token}

theorem Block.Written.move (hr : rules.Moving σ rules') {body : Block} (h : body.Written rules ts)
    (hts : RigidOn σ ts) :
    (body.mapSpans (Span.move σ)).Written rules' (ts.map (Token.move σ)) := by
  cases h with
  | mk ht hs =>
    rw [Block.mapSpans, ← Token.move_spanOf hr.ordered hts (by simp), Statement.mapSpansEach_eq]
    rw [RigidOn, List.forall_mem_cons] at hts
    exact .mk ht (hs.move hts.2 (fun _ _ => hr.statement)
      fun st r h => st.endsBefore_mapSpans.2 ((alike_move σ r).statement h))

theorem StringPart.Written.move (hr : rules.Moving σ rules') {x : Piece} {p : StringPart}
    (h : p.Written rules x) (hx : ∀ h, x = .hole h → RigidAt σ h.dollar) :
    (p.mapSpans (Span.move σ)).Written rules' (x.move σ) := by
  have hstart : ∀ {h : RawHole}, RigidAt σ h.dollar → RigidAt σ h.start := by
    intro h hd
    cases hk : h.kind <;> rw [RawHole.start, hk] <;> exact hd.add _
  cases h with
  | text => exact .text
  | @nameHole h n ts last hk hl hn =>
    have hd := hx h rfl
    obtain ⟨hmoved, hts⟩ := Lexed.ofString_move hl (hstart hd)
    rw [← RawHole.move_start hd] at hmoved
    exact .nameHole hk hmoved (hn.move hr.ordered hts)
  | @exprHole h e ts last hk hl he =>
    have hd := hx h rfl
    obtain ⟨hmoved, hts⟩ := Lexed.ofString_move hl (hstart hd)
    rw [← RawHole.move_start hd] at hmoved
    exact .exprHole hk hmoved (hr.value he hts)

theorem StringPart.EachWritten.move (hr : rules.Moving σ rules') {xs : List Piece}
    {ps : List StringPart} (h : StringPart.EachWritten rules xs ps)
    (hxs : ∀ h, .hole h ∈ xs → RigidAt σ h.dollar) :
    StringPart.EachWritten rules' (xs.map (Piece.move σ))
      (StringPart.mapSpansEach (Span.move σ) ps) := by
  induction h with
  | nil => exact .nil
  | cons hp _ ih =>
    refine .cons (hp.move hr fun h hx => hxs h ?_) (ih fun h hh => hxs h (by simp [hh]))
    rw [hx]
    exact List.mem_cons_self ..

theorem StringLiteral.Written.move (hr : rules.Moving σ rules') {l : StringLiteral} {t : Token}
    (h : l.Written rules t) (ht : RigidAt σ t.start) :
    (l.mapSpans (Span.move σ)).Written rules' (t.move σ) := by
  cases h with
  | @mk _ decoded parts hd hp =>
    obtain ⟨hmoved, hholes⟩ := decode_move hd ht
    rw [StringLiteral.mapSpans, ← Token.move_span ht]
    exact @StringLiteral.Written.mk rules' (t.move σ)
      ⟨decoded.form, decoded.pieces.map (Piece.move σ)⟩ _ hmoved (hp.move hr hholes)

theorem Name.WrittenOperand.move (ho : Ordered σ) {n : Name} (h : n.WrittenOperand ts)
    (hts : RigidOn σ ts) :
    (n.mapSpans (Span.move σ)).WrittenOperand (ts.map (Token.move σ)) := by
  refine ⟨h.name.move ho hts, ?_⟩
  cases ts with
  | nil => nofun
  | cons t ts =>
    intro u hu
    obtain rfl := Option.some.inj hu
    exact h.free t rfl

theorem Expr.OperandWritten.move (hr : rules.Moving σ rules') {e : Expr}
    (h : e.OperandWritten rules s ts) (hts : RigidOn σ ts) :
    (e.mapSpans (Span.move σ)).OperandWritten rules' s (ts.map (Token.move σ)) := by
  cases h with
  | unary ht ho =>
    rw [RigidOn, List.forall_mem_cons] at hts
    rw [Expr.mapSpans, ExprKind.mapSpans, Span.move_cover hr.ordered, ← Token.move_span hts.1,
      ← Expr.mapSpans_span (Span.move σ)]
    exact .unary ht (hr.expr ho hts.2)
  | word ht hl =>
    rw [Expr.mapSpans, ExprKind.mapSpans, Literal.mapSpans_word _ hl,
      ← Token.move_span (hts _ (by simp))]
    exact .word ht hl
  | name hn => exact .name (hn.move hr.ordered hts)
  | @number t kind ht =>
    rw [Expr.mapSpans, ExprKind.mapSpans, Literal.mapSpans, ← Token.move_span (hts _ (by simp))]
    exact @Expr.OperandWritten.number rules' s (t.move σ) kind ht
  | @string t literal ht hl =>
    have hrigid := hts t (by simp)
    rw [Expr.mapSpans, ExprKind.mapSpans, Literal.mapSpans, ← Token.move_span hrigid]
    exact .string ht (hl.move hr hrigid)
  | group ht hi hu =>
    rw [Expr.mapSpans, ExprKind.mapSpans, ← Token.move_spanOf hr.ordered hts (by simp)]
    simp only [RigidOn, List.forall_mem_cons, List.forall_mem_append] at hts
    simp only [List.map_cons, List.map_append, List.map_nil]
    exact .group ht (hr.expr hi hts.2.1) hu
  | array ht hi =>
    rw [Expr.mapSpans, ExprKind.mapSpans, ← Token.move_spanOf hr.ordered hts (by simp),
      Expr.mapSpansEach_eq]
    rw [RigidOn, List.forall_mem_cons] at hts
    exact .array ht (hi.move hts.2 (fun _ _ => hr.value)
      fun e r h => e.closesValue_mapSpans.2 (h.mono (alike_move σ r).looser))
  | object ht hs he =>
    rw [Expr.mapSpans, ExprKind.mapSpans, ← Token.move_spanOf hr.ordered hts (by simp),
      Statement.mapSpansEach_eq]
    rw [RigidOn, List.forall_mem_cons] at hts
    exact .object ht hs (he.move hts.2 (fun _ _ => hr.statement)
      fun st r h => st.endsBefore_mapSpans.2 ((alike_move σ r).statement h))

theorem Block.TrailingWritten.move (hr : rules.Moving σ rules') {o : Option Block}
    (h : Block.TrailingWritten rules s o ts) (hts : RigidOn σ ts) :
    Block.TrailingWritten rules' s (Block.mapSpansOption (Span.move σ) o)
      (ts.map (Token.move σ)) := by
  cases h with
  | none => exact .none
  | some hs hc hb => exact .some hs hc.move (hb.move hr hts)

/-- The arguments of a call or of an import. -/
theorem Expr.move_arguments (hr : rules.Moving σ rules') {args : List Expr}
    (h : ListWritten [.comma] .closeParen (rules.expr .item .group) (Expr.Closes .item .group)
      args ts) (hts : RigidOn σ ts) :
    ListWritten [.comma] .closeParen (rules'.expr .item .group) (Expr.Closes .item .group)
      (Expr.mapSpansEach (Span.move σ) args) (ts.map (Token.move σ)) := by
  rw [Expr.mapSpansEach_eq]
  exact h.move hts (fun _ _ => hr.expr)
    fun e r h => e.closes_mapSpans.2 (h.mono (alike_move σ r).looser)

theorem Expr.Extends.move (hr : rules.Moving σ rules') {left e : Expr} {o : Operator}
    (h : Expr.Extends rules s left o us e) (hus : RigidOn σ us) :
    Expr.Extends rules' s (left.mapSpans (Span.move σ)) o (us.map (Token.move σ))
      (e.mapSpans (Span.move σ)) := by
  have hcover := fun b : Span => Span.move_cover hr.ordered left.span b
  cases h with
  | binary ho hright =>
    rw [RigidOn, List.forall_mem_cons] at hus
    rw [Expr.mapSpans, ExprKind.mapSpans, hcover,
      ← Expr.mapSpans_span (Span.move σ) left, ← Expr.mapSpans_span (Span.move σ)]
    exact .binary ho (hr.expr hright hus.2)
  | comparison ho hright =>
    rw [RigidOn, List.forall_mem_cons] at hus
    rw [Expr.mapSpans, ExprKind.mapSpans, hcover,
      ← Expr.mapSpans_span (Span.move σ) left, ← Expr.mapSpans_span (Span.move σ)]
    exact .comparison ho (hr.expr hright hus.2)
  | pair ho hk hv =>
    rw [RigidOn, List.forall_mem_cons] at hus
    rw [Expr.mapSpans, ExprKind.mapSpans, hcover,
      ← Expr.mapSpans_span (Span.move σ) left, ← Expr.mapSpans_span (Span.move σ)]
    exact .pair ho (PairKey.mapSpans_eq _ hk) (hr.value hv hus.2)
  | transition ho hs ht =>
    rw [RigidOn, List.forall_mem_cons] at hus
    rw [Expr.mapSpans, ExprKind.mapSpans, hcover, ← Expr.mapSpans_span (Span.move σ) left]
    obtain ⟨kind, span⟩ := left
    obtain rfl : kind = _ := hs
    exact .transition ho rfl (ht.move hr.ordered hus.2)
  | call ho ha hb =>
    rw [Expr.mapSpans, ExprKind.mapSpans, ← Token.move_spanFrom hr.ordered hus (by simp)]
    rw [RigidOn, List.forall_mem_cons, List.forall_mem_append] at hus
    rw [show σ left.span.start = (left.mapSpans (Span.move σ)).span.start by
      rw [Expr.mapSpans_span]; rfl]
    simp only [List.map_cons, List.map_append]
    exact .call ho (Expr.move_arguments hr ha hus.2.1) (hb.move hr hus.2.2)

theorem Expr.Written.move (hr : rules.Moving σ rules') {e : Expr} (h : e.Written rules s min ts)
    (hts : RigidOn σ ts) :
    (e.mapSpans (Span.move σ)).Written rules' s min (ts.map (Token.move σ)) := by
  induction h with
  | operand he => exact .operand (he.move hr hts)
  | @extend left e o t ts us hl hle ho he ih =>
    rw [RigidOn, List.forall_mem_append] at hts
    rw [List.map_append, List.map_cons]
    refine .extend (ih hts.1) ?_ ⟨ho.sameLine, ho.operator, ho.strong⟩ (he.move hr hts.2)
    exact left.endsBefore_mapSpans.2 (hle.mono (alike_move σ (t :: us)).looser)

end Script
