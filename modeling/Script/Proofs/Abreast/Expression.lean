import Script.Proofs.Abreast.Literals

/-!
The parsers of expressions side by side, given the same of the parsers for what is nested.
-/
namespace Script

theorem Parser.pairKey?_mapSpans (f : Span → Span) (e : Expr) :
    Parser.pairKey? (e.mapSpans f) = (Parser.pairKey? e).map (PairKey.mapSpans f) := by
  cases h : Parser.pairKey? e with
  | some key => exact PairKey.mapSpans_eq f h
  | none =>
    obtain ⟨kind, span⟩ := e
    cases kind with
    | literal literal =>
      cases literal with
      | string literal =>
        obtain ⟨form, parts, span⟩ := literal
        cases form <;> first | rfl | cases h
      | _ => rfl
    | name => cases h
    | _ => rfl

/-- An operator goes on with an expression at like tokens alike. -/
theorem Places.Like.applies {P : Places} {t u : Token} {s : Surroundings} {min : Strength}
    {o : Operator} (h : P.Like t u) : Applies s min t o ↔ Applies s min u o :=
  ⟨fun ho => ⟨h.newline ▸ ho.sameLine, h.kind ▸ ho.operator, ho.strong⟩,
    fun ho => ⟨h.newline ▸ ho.sameLine, h.kind ▸ ho.operator, ho.strong⟩⟩

namespace Parser

open Outcome Seam

variable {σ : Seam} {n : Nat} {nested nested' : Nested} {s : Surroundings} {c d : Cursor}

theorem block_abreast (hn : nested.Abreast σ.places n nested') :
    Abreast σ (n + 1) (fun _ => n) σ.Like (block nested) (block nested') := by
  refine position_abreast.bind fun i j hij => ?_
  refine (bracketed_abreast (by decide) (by decide) (hn.statement rfl) _).bind fun ss ss' hs => ?_
  refine (spanFrom_abreast hij).bind fun x x' hx => .pure ?_ (Nat.le_refl n)
  simp_all [Places.Like, Placed.move, Block.mapSpans]

theorem block_strict (hn : nested.Abreast σ.places n nested') :
    Strict σ n (block nested) (block nested') :=
  fun _ hk => block_abreast (hn.mono (Nat.le_of_lt hk))

theorem arguments_abreast (hn : nested.Abreast σ.places n nested') :
    Abreast σ (n + 1) (fun _ => n) σ.Like (arguments nested) (arguments nested') :=
  bracketed_abreast (by decide) (by decide) (hn.expr rfl .group) _

theorem named_abreast : Abreast σ (n + 1) (fun _ => n) σ.Like named named := by
  refine name_abreast.bind fun x y h => .pure ?_ (Nat.le_refl n)
  have hspan := h.nameSpan
  simp_all [Places.Like, Placed.move, Expr.mapSpans, ExprKind.mapSpans]

/-- A literal is taken apart where it stands, before it is seen what follows it. -/
theorem kept_stringLiteral (hn : nested.Abreast σ.places n nested') (hc : σ.Near (n + 1) c d)
    (hk : c.here.kind ≠ .endOfText) :
    Kept σ (fun _ => n) σ.Like (stringLiteral nested s c) (stringLiteral nested' s d) := by
  have hsize : c.here.text.utf8ByteSize ≤ n := by
    have hw := hc.light
    rw [Cursor.weight, Cursor.rest, Token.weight] at hw
    omega
  rw [stringLiteral, stringLiteral, advance_bind, advance_bind]
  obtain ⟨l, l', hl, hl', h⟩ | ⟨e, e', hl, hl', he⟩ :=
    Places.like_except (literalOf_like hn hc.like hsize)
  · rw [hl, hl']
    rcases hc.advance hk with hr | ⟨-, hr⟩
    · exact .ok h hr
    · exact .gone (.ok h hr)
  · rw [hl, hl']
    exact .error he

theorem kept_wordOperand (hc : σ.Near (n + 1) c d) (hk : c.here.kind ≠ .endOfText) :
    Kept σ (fun _ => n) σ.Like (wordOperand c.here s c) (wordOperand d.here s d) := by
  rw [wordOperand, wordOperand, hc.like.keyword]
  cases d.here.keyword? with
  | none => exact named_abreast.near hc
  | some word =>
    cases hl : literalWord? word with
    | some literal =>
      simp only [hl]
      refine kept_then (kept_take hc hk) fun _ _ _ => .pure ?_ (Nat.le_refl n)
      have hspan := hc.like.span
      simp_all [Places.Like, Placed.move, Expr.mapSpans, ExprKind.mapSpans,
        Literal.mapSpans_word _ hl]
    | none =>
      simp only [hl]
      cases word.isSoft with
      | true => exact named_abreast.near hc
      | false => exact (unexpected_abreast _).near (s := s) hc

theorem group_abreast (hn : nested.Abreast σ.places n nested') :
    Abreast σ (n + 1) (fun _ => n) σ.Like (group nested) (group nested') := by
  refine position_abreast.bind fun i j hij => ?_
  refine (token_abreast (by decide)).bind fun _ _ _ => ?_
  refine (((hn.expr rfl .group).lax (Nat.le_refl n)).within _ _).bind fun e e' he => ?_
  refine (Abreast.lax fun _ _ => token_abreast (by decide)).bind fun _ _ _ => ?_
  refine (spanFrom_abreast hij).bind fun x x' hx => .pure ?_ (Nat.le_refl n)
  simp_all [Places.Like, Placed.move, Expr.mapSpans, ExprKind.mapSpans]

theorem array_abreast (hn : nested.Abreast σ.places n nested') :
    Abreast σ (n + 1) (fun _ => n) σ.Like (array nested) (array nested') := by
  refine position_abreast.bind fun i j hij => ?_
  refine (bracketed_abreast (by decide) (by decide) (hn.value rfl .group) _).bind fun es es' he => ?_
  refine (spanFrom_abreast hij).bind fun x x' hx => .pure ?_ (Nat.le_refl n)
  simp_all [Places.Like, Placed.move, Expr.mapSpans, ExprKind.mapSpans]

theorem object_abreast (hn : nested.Abreast σ.places n nested') :
    Abreast σ (n + 1) (fun _ => n) σ.Like (object nested) (object nested') := by
  refine position_abreast.bind fun i j hij => ?_
  refine (bracketed_abreast (by decide) (by decide) (hn.statement rfl) _).bind fun ss ss' hs => ?_
  refine (spanFrom_abreast hij).bind fun x x' hx => .pure ?_ (Nat.le_refl n)
  simp_all [Places.Like, Placed.move, Expr.mapSpans, ExprKind.mapSpans]

theorem kept_unary (hn : nested.Abreast σ.places n nested') (hc : σ.Near (n + 1) c d)
    (hk : c.here.kind ≠ .endOfText) (op : UnaryOp) :
    Kept σ (fun _ => n) σ.Like (unary nested op s c) (unary nested' op s d) := by
  refine kept_then (kept_take hc hk) fun t u htu => ?_
  refine ((hn.expr rfl .unary).lax (Nat.le_refl n)).bind fun e e' he => .pure ?_ (Nat.le_refl n)
  have hspan := htu.span.cover he.exprSpan
  simp_all [Places.Like, Placed.move, Expr.mapSpans, ExprKind.mapSpans]

theorem kept_string (hn : nested.Abreast σ.places n nested') (hc : σ.Near (n + 1) c d)
    (hk : c.here.kind ≠ .endOfText) {x x' : Span} (hx : σ.Like x x') :
    Kept σ (fun _ => n) σ.Like
      ((do
        let literal ← stringLiteral nested
        return ⟨.literal (.string literal), x⟩ : Parser Expr) s c)
      ((do
        let literal ← stringLiteral nested'
        return ⟨.literal (.string literal), x'⟩ : Parser Expr) s d) := by
  refine kept_then (kept_stringLiteral hn hc hk) fun l l' hl => .pure ?_ (Nat.le_refl n)
  simp_all [Places.Like, Placed.move, Expr.mapSpans, ExprKind.mapSpans, Literal.mapSpans]

theorem operand_abreast (hn : nested.Abreast σ.places n nested') :
    Abreast σ (n + 1) (fun _ => n) σ.Like (operand nested) (operand nested') := by
  constructor
  · intro s c d hc
    have hspan := hc.like.span
    rw [operand, here_bind, operand, here_bind, ← hc.like.kind]
    cases ho : UnaryOp.ofKind? c.here.kind with
    | some op =>
      refine kept_unary hn hc ?_ op
      intro hk
      rw [hk] at ho
      cases ho
    | none =>
      cases hk : c.here.kind <;> simp only
      case ident => exact kept_wordOperand hc (by simp [hk])
      case dot => exact named_abreast.near hc
      case number kind =>
        refine kept_then (kept_take hc (by simp [hk])) fun _ _ _ => .pure ?_ (Nat.le_refl n)
        have htext := hc.like.text
        simp_all [Places.Like, Placed.move, Expr.mapSpans, ExprKind.mapSpans, Literal.mapSpans]
      case openParen => exact (group_abreast hn).near hc
      case openBracket => exact (array_abreast hn).near hc
      case openBrace =>
        rw [surroundings_bind, surroundings_bind, ite_apply, ite_apply]
        split
        · exact (object_abreast hn).near hc
        · exact .error (Places.like_error.2 ⟨rfl, hspan⟩)
      case plainString => exact kept_string hn hc (by simp [hk]) hspan
      case rawString => exact kept_string hn hc (by simp [hk]) hspan
      case formattedString => exact kept_string hn hc (by simp [hk]) hspan
      all_goals exact (unexpected_abreast _).near hc
  · intro s c hc
    rw [operand, here_bind]
    rcases hc.kind with hk | hk
    · rw [hk]
      exact (unexpected_abreast (R := σ.Like) (.expression)).away hc
    · rw [hk]
      exact named_abreast.away hc

theorem kept_pair (hn : nested.Abreast σ.places n nested') (hc : σ.Near (n + 1) c d)
    (hk : c.here.kind ≠ .endOfText) {left left' : Expr} (h : σ.Like left left') :
    Kept σ (fun _ => n) σ.Like (pair nested left s c) (pair nested' left' s d) := by
  have hkey : σ.Like (pairKey? left) (pairKey? left') := by
    have heq := congrArg pairKey? h
    exact (pairKey?_mapSpans _ _).symm.trans (heq.trans (pairKey?_mapSpans _ _))
  have hleft := h.exprSpan
  rw [pair, pair]
  obtain ⟨hl, hl'⟩ | ⟨key, key', hl, hl', hkk⟩ := Places.like_option hkey
  · rw [hl, hl']
    exact .error (Places.like_error.2 ⟨rfl, hleft⟩)
  · rw [hl, hl']
    refine kept_then (kept_take hc hk) fun _ _ _ => ?_
    refine ((hn.value rfl .transition).lax (Nat.le_refl n)).bind fun e e' he => ?_
    refine .pure ?_ (Nat.le_refl n)
    have hspan := hleft.cover he.exprSpan
    simp_all [Places.Like, Placed.move, Expr.mapSpans, ExprKind.mapSpans]

/-- The target of a transition, which must begin with a name. -/
theorem kept_target (hc : σ.Near (n + 1) c d) (hk : c.here.kind ≠ .endOfText)
    {source source' : Name} (hs : σ.Like source source') {x x' : Span} (hx : σ.Like x x') :
    Kept σ (fun _ => n) σ.Like
      ((do
        let _ ← advance
        if ← isAtAny [.ident, .dot] then
          let target ← name
          return ⟨.transition source target, x.cover target.span⟩
        else fail .invalidTransition (← here).span : Parser Expr) s c)
      ((do
        let _ ← advance
        if ← isAtAny [.ident, .dot] then
          let target ← name
          return ⟨.transition source' target, x'.cover target.span⟩
        else fail .invalidTransition (← here).span : Parser Expr) s d) := by
  have hname : Abreast σ n (fun _ => n) σ.Like
      (do
        let target ← name
        return ⟨.transition source target, x.cover target.span⟩ : Parser Expr)
      (do
        let target ← name
        return ⟨.transition source' target, x'.cover target.span⟩ : Parser Expr) := by
    refine (Abreast.lax fun _ _ => name_abreast).bind fun y y' hy => .pure ?_ (Nat.le_refl n)
    have hspan := hx.cover hy.nameSpan
    simp_all [Places.Like, Placed.move, Expr.mapSpans, ExprKind.mapSpans]
  refine kept_bind (kept_take hc hk) (fun _ _ c' d' _ hc' => ?_) fun hg =>
    gone_bind hg fun _ _ c' _ ha => ?_
  · rw [isAtAny_bind, isAtAny_bind, hc'.like.kind, ite_apply, ite_apply]
    split
    · exact hname.near hc'
    · exact .error (Places.like_error.2 ⟨rfl, hc'.like.span⟩)
  · rw [isAtAny_bind, ite_apply]
    rcases ha.kind with hend | hdot
    · rw [hend, if_neg (by decide)]
      refine .error ⟨ha.cut, .inl ?_⟩
      exact congrArg Token.span (Cursor.rest_eq_cons (ha.reaches.rest_of_end hend)).1
    · rw [hdot, if_pos (by decide)]
      exact hname.away ha

theorem transition_other {left : Expr} (h : ∀ x, left.kind ≠ .name x) :
    transition left s c = .error ⟨.invalidTransition, left.span⟩ c := by
  obtain ⟨kind, span⟩ := left
  cases kind with
  | name x => exact absurd rfl (h x)
  | _ => rfl

theorem kept_transition (hc : σ.Near (n + 1) c d) (hk : c.here.kind ≠ .endOfText)
    {left left' : Expr} (h : σ.Like left left') :
    Kept σ (fun _ => n) σ.Like (transition left s c) (transition left' s d) := by
  obtain ⟨x, y, hx, hy, hxy⟩ | ⟨hx, hy⟩ := h.name_cases
  · rw [transition, transition, hx, hy]
    exact kept_target hc hk hxy h.exprSpan
  · rw [transition_other hx, transition_other hy]
    exact .error (Places.like_error.2 ⟨rfl, h.exprSpan⟩)

theorem trailingBlock_abreast (hn : nested.Abreast σ.places n nested') :
    Abreast σ n (fun _ => n) σ.Like (trailingBlock nested) (trailingBlock nested') := by
  refine here_abreast.bind fun t u htu => surroundings_abreast.bind ?_
  rintro x _ rfl
  dsimp only
  rw [htu.kind, htu.newline]
  split
  · exact ((block_strict hn).lax (Nat.le_refl n)).bind fun b b' hb =>
      .pure (Places.like_some.2 hb) (Nat.le_refl n)
  · exact .pure Places.like_none (Nat.le_refl n)

theorem call_abreast (hn : nested.Abreast σ.places n nested') {callee callee' : Expr}
    (h : σ.Like callee callee') :
    Abreast σ (n + 1) (fun _ => n) σ.Like (call nested callee) (call nested' callee') := by
  refine (arguments_abreast hn).bind fun as as' has => ?_
  refine (trailingBlock_abreast hn).bind fun b b' hb => ?_
  have hstart := (Places.like_span.1 h.exprSpan).1
  refine (spanFrom_abreast hstart).bind fun x x' hx => .pure ?_ (Nat.le_refl n)
  simp_all [Places.Like, Placed.move, Expr.mapSpans, ExprKind.mapSpans]

/-- The right side of an operator, and what it builds of both. -/
theorem kept_extend (hn : nested.Abreast σ.places n nested') (hc : σ.Near (n + 1) c d)
    {o : Operator} (ho : Operator.ofKind? c.here.kind = some o) {left left' : Expr}
    (h : σ.Like left left') :
    Kept σ (fun _ => n) σ.Like (extend nested left o s c) (extend nested' left' o s d) := by
  have hk : c.here.kind ≠ .endOfText := by
    intro hk
    rw [hk] at ho
    cases ho
  have hleft := h.exprSpan
  obtain ⟨op, rfl⟩ | ⟨op, rfl⟩ | ⟨-, rfl⟩ | ⟨-, rfl⟩ | ⟨-, rfl⟩ := operator_cases ho
  · refine kept_then (kept_take hc hk) fun _ _ _ => ?_
    refine ((hn.expr rfl _).lax (Nat.le_refl n)).bind fun e e' he => .pure ?_ (Nat.le_refl n)
    have hspan := hleft.cover he.exprSpan
    simp_all [Places.Like, Placed.move, Expr.mapSpans, ExprKind.mapSpans]
  · refine kept_then (kept_take hc hk) fun _ _ _ => ?_
    refine ((hn.expr rfl _).lax (Nat.le_refl n)).bind fun e e' he => .pure ?_ (Nat.le_refl n)
    have hspan := hleft.cover he.exprSpan
    simp_all [Places.Like, Placed.move, Expr.mapSpans, ExprKind.mapSpans]
  · exact kept_pair hn hc hk h
  · exact kept_transition hc hk h
  · exact (call_abreast hn h).near hc

theorem climb_abreast (hn : nested.Abreast σ.places n nested') (min : Strength)
    {left left' : Expr} (h : σ.Like left left') :
    StepsAbreast σ n (climb nested min left) (climb nested' min left') := by
  intro k hk
  have hn := hn.mono (Nat.le_of_lt hk)
  constructor
  · intro s c d hc
    rw [climb, climb, here_bind, here_bind, surroundings_bind, surroundings_bind, hc.like.newline,
      ite_apply, ite_apply]
    split
    · exact .ok Places.like_none hc
    · have hkind := hc.like.kind
      cases ho : Operator.ofKind? c.here.kind with
      | none =>
        rw [← hkind, ho]
        exact .ok Places.like_none hc
      | some o =>
        rw [← hkind, ho]
        dsimp only
        rw [ite_apply, ite_apply]
        split
        · exact .ok Places.like_none hc
        · exact kept_then (kept_extend hn hc ho h) fun e e' he =>
            .pure (Places.like_some.2 he) (Nat.le_refl k)
  · intro s c hc
    have ho : Operator.ofKind? c.here.kind = none := by
      rcases hc.kind with hk | hk <;> rw [hk] <;> rfl
    rw [climb, here_bind, surroundings_bind, ite_apply, ho]
    split <;> exact .ok Places.like_none hc

theorem expr_abreast (hn : nested.Abreast σ.places n nested') (min : Strength) :
    Abreast σ (n + 1) (fun _ => n) σ.Like (expr nested min) (expr nested' min) :=
  (operand_abreast hn).bind fun _ _ h => iterate_abreast (fun _ _ hab => climb_abreast hn min hab) h

section LastWord

variable (hc : σ.AtLast (n + 1) c) (hk : c.here.kind = .ident)
include hc hk

theorem named_gone : Gone σ (fun _ => n) σ.Like (named s c) := by
  refine gone_bind (name_gone hc hk) fun x y c' h ha => .ok (b := ⟨.name y, y.span⟩) ?_ ha
  have hspan := h.nameSpan
  simp_all [Places.Like, Placed.move, Expr.mapSpans, ExprKind.mapSpans]

variable (hr : c.here.Reserved →
  σ.Lost ⟨.unexpectedToken .expression c.here.describe, c.here.span⟩)
include hr

/-- The last word of a list is read as a name or a literal, or it is a keyword at which no
expression begins. -/
theorem operand_gone (nested : Nested) : Gone σ (fun _ => n) σ.Like (operand nested s c) := by
  have ho : UnaryOp.ofKind? c.here.kind = none := by rw [hk]; rfl
  rw [operand, here_bind, ho]
  simp only [hk]
  rw [wordOperand]
  cases hword : c.here.keyword? with
  | none => exact named_gone hc hk
  | some word =>
    cases hl : literalWord? word with
    | some literal =>
      simp only [hl]
      obtain ⟨u, hu⟩ := σ.places.exists_like_token c.here
      refine .ok (b := ⟨.literal literal, u.span⟩) ?_ hc.advance.2
      have hspan := hu.span
      simp_all [Places.Like, Placed.move, Expr.mapSpans, ExprKind.mapSpans,
        Literal.mapSpans_word _ hl]
    | none =>
      simp only [hl]
      cases hs : word.isSoft with
      | true => exact named_gone hc hk
      | false => exact .error (hr ⟨word, hword, hl, hs⟩)

theorem expr_gone (hn : nested.Abreast σ.places n nested') (min : Strength) :
    Gone σ (fun _ => n) σ.Like (expr nested min s c) :=
  gone_bind (operand_gone hc hk hr nested) fun _ _ _ h ha =>
    (iterate_abreast (fun _ _ hab => climb_abreast hn min hab) h).away ha

end LastWord

section Key

variable {c' d' : Cursor} {e e' left left' : Expr} {min : Strength} {o : Operator} {m : Nat}

/-- An operand that begins with a name is one. -/
theorem operand_named (h : c.here.kind = .dot ∨ c.here.kind = .ident ∧ MayName c.here) :
    operand nested s c = .ok e c' ↔ named s c = .ok e c' := by
  rw [operand, here_bind]
  rcases h with hk | ⟨hk, hname⟩
  · simp only [hk, UnaryOp.ofKind?, UnaryOp.table, List.lookup_cons, List.lookup_nil]
    rfl
  · simp only [hk, UnaryOp.ofKind?, UnaryOp.table, List.lookup_cons, List.lookup_nil]
    refine wordOperand_ok.trans ⟨?_, fun h => .inr ⟨hname, h⟩⟩
    rintro (⟨word, literal, hw, hl, -⟩ | ⟨-, h⟩)
    · simp [(hname word hw).1] at hl
    · exact h

/-- Where the first list has ended, or at a last point of it, no expression is found. -/
theorem expr_silent (hc : σ.Away n c) : expr nested min s c ≠ .ok e c' := by
  intro h
  obtain ⟨a, c1, ha, -⟩ := expr_ok.1 h
  rcases hc.kind with hk | hk
  · rw [operand, here_bind, hk] at ha
    exact unexpected_ok ha
  · obtain ⟨_, _, hn, -⟩ := named_ok.1 ((operand_named (.inl hk)).1 ha)
    obtain ⟨-, hident, -⟩ | ⟨hdot, -⟩ := name_ok.1 hn
    · rw [(Cursor.rest_eq_cons hc.advance.1).1, σ.last_kind] at hident
      cases hident
    · exact hdot hk

theorem operand_string (hk : c.here.kind.isString = true) (h : operand nested s c = .ok e c') :
    c.advance = c' := by
  rw [operand, here_bind] at h
  cases hkind : c.here.kind <;> rw [hkind] at hk <;> cases hk <;>
    simp only [hkind, UnaryOp.ofKind?, UnaryOp.table, List.lookup_cons, List.lookup_nil] at h
  all_goals
    obtain ⟨literal, c1, hs, h⟩ := bind_ok.1 h
    exact (stringLiteral_ok.1 hs).2.trans (pure_ok.1 h).2

/-- An operand is no pair, and only strings and names are keys. -/
theorem operand_key (h : operand nested s c = .ok e c') :
    isPair e = false ∧ (pairKey? e ≠ none → c.here.kind.isString = true ∨ c.here.kind = .dot ∨
      c.here.kind = .ident ∧ MayName c.here) := by
  rw [operand, here_bind] at h
  cases ho : UnaryOp.ofKind? c.here.kind with
  | some op =>
    simp only [ho] at h
    obtain ⟨_, c1, -, rfl, -⟩ := unary_ok.1 h
    exact ⟨rfl, fun hk => absurd rfl hk⟩
  | none =>
    simp only [ho] at h
    cases hk : c.here.kind <;> simp only [hk] at h
    case ident =>
      obtain ⟨word, literal, -, hl, rfl, -⟩ | ⟨hname, h⟩ := wordOperand_ok.1 h
      · refine ⟨rfl, fun hkey => absurd ?_ hkey⟩
        cases word <;> cases hl <;> rfl
      · obtain ⟨_, _, -, rfl, -⟩ := named_ok.1 h
        exact ⟨rfl, fun _ => .inr (.inr ⟨rfl, hname⟩)⟩
    case dot =>
      obtain ⟨_, _, -, rfl, -⟩ := named_ok.1 h
      exact ⟨rfl, fun _ => .inr (.inl rfl)⟩
    case number =>
      simp only [advance_bind, pure_ok] at h
      obtain ⟨rfl, -⟩ := h
      exact ⟨rfl, fun hkey => absurd rfl hkey⟩
    case openParen =>
      obtain ⟨-, _, _, -, -, rfl, -⟩ := group_ok.1 h
      exact ⟨rfl, fun hkey => absurd rfl hkey⟩
    case openBracket =>
      obtain ⟨_, _, -, rfl, -⟩ := array_ok.1 h
      exact ⟨rfl, fun hkey => absurd rfl hkey⟩
    case openBrace =>
      rw [surroundings_bind, ite_apply, ite_eq_ok] at h
      obtain ⟨-, h⟩ | ⟨-, h⟩ := h
      · obtain ⟨_, _, -, rfl, -⟩ := object_ok.1 h
        exact ⟨rfl, fun hkey => absurd rfl hkey⟩
      · exact absurd h fail_ok
    case plainString | rawString | formattedString =>
      obtain ⟨_, _, -, h⟩ := bind_ok.1 h
      obtain ⟨rfl, -⟩ := pure_ok.1 h
      exact ⟨rfl, fun _ => .inl rfl⟩
    all_goals exact absurd h unexpected_ok

/-- What an operator builds is no key, and it is a pair exactly if the operator is a colon, which
takes a key on its left. -/
theorem extend_pair (ho : Operator.ofKind? c.here.kind = some o)
    (h : extend nested left o s c = .ok e c') :
    pairKey? e = none ∧
      ((c.here.kind = .colon ∧ pairKey? left ≠ none ∧ isPair e = true) ∨
        (c.here.kind ≠ .colon ∧ isPair e = false)) := by
  have hcolon : o.op ≠ .pair → c.here.kind ≠ .colon := by
    intro hop hk
    rw [hk] at ho
    cases ho
    exact hop rfl
  obtain ⟨op, rfl⟩ | ⟨op, rfl⟩ | ⟨hk, rfl⟩ | ⟨hk, rfl⟩ | ⟨hk, rfl⟩ := operator_cases ho
  · simp only [extend, advance_bind, bind_ok, pure_ok] at h
    obtain ⟨right, c1, -, rfl, -⟩ := h
    exact ⟨rfl, .inr ⟨hcolon (by simp), rfl⟩⟩
  · simp only [extend, advance_bind, bind_ok, pure_ok] at h
    obtain ⟨right, c1, -, rfl, -⟩ := h
    exact ⟨rfl, .inr ⟨hcolon (by simp), rfl⟩⟩
  · obtain ⟨key, hkey, value, c1, -, rfl, -⟩ := pair_ok.1 h
    exact ⟨rfl, .inl ⟨hk, by simp [hkey], rfl⟩⟩
  · obtain ⟨source, -, -, target, c1, -, rfl, -⟩ := transition_ok.1 h
    exact ⟨rfl, .inr ⟨by simp [hk], rfl⟩⟩
  · obtain ⟨args, c1, -, body, c2, -, rfl, -⟩ := call_ok.1 h
    exact ⟨rfl, .inr ⟨by simp [hk], rfl⟩⟩

/-- Operators make no pair of what is neither a key nor a pair. -/
theorem steps_not_pair (h : Steps (climb nested min) s c left m e c') (hk : pairKey? left = none)
    (hp : isPair left = false) : isPair e = false := by
  induction h with
  | done => exact hp
  | more h _ ih =>
    obtain ⟨-, hnone, -⟩ | ⟨o, ho, _, hx, heq⟩ := climb_ok.1 h
    · cases hnone
    · obtain rfl := Option.some.inj heq
      obtain ⟨hkey, ⟨-, hleft, -⟩ | ⟨-, hpair⟩⟩ := extend_pair ho.operator hx
      · exact absurd hk hleft
      · exact ih hkey hpair

/-- Operators make a pair of an operand with a single colon. -/
theorem steps_pair (h : Steps (climb nested min) s c left m e c') (hp : isPair left = false)
    (he : isPair e = true) :
    pairKey? left ≠ none ∧ c.here.kind = .colon ∧ climb nested min left s c = .ok (some e) c' ∧
      climb nested min e s c' = .ok none c' := by
  cases h with
  | done => simp [hp] at he
  | more h hs =>
    obtain ⟨-, hnone, -⟩ | ⟨o, ho, _, hx, heq⟩ := climb_ok.1 h
    · cases hnone
    obtain rfl := Option.some.inj heq
    obtain ⟨hkey, ⟨hcolon, hleft, -⟩ | ⟨-, hpair⟩⟩ := extend_pair ho.operator hx
    · cases hs with
      | done h' =>
        obtain ⟨-, -, rfl⟩ | ⟨_, _, _, -, hnone⟩ := climb_ok.1 h'
        · exact ⟨hleft, hcolon, h, h'⟩
        · cases hnone
      | more h' hs =>
        obtain ⟨-, hnone, -⟩ | ⟨o', ho', _, hx', heq⟩ := climb_ok.1 h'
        · cases hnone
        obtain rfl := Option.some.inj heq
        obtain ⟨hkey', ⟨-, hleft', -⟩ | ⟨-, hpair⟩⟩ := extend_pair ho'.operator hx'
        · exact absurd hkey hleft'
        · simp [steps_not_pair hs hkey' hpair] at he
    · simp [steps_not_pair hs hkey hpair] at he

/-- An operand that was lost where the other one is the key of a pair. -/
theorem toColon_of_operand {c1 d1 : Cursor} {a b : Expr} (hc : σ.Near n c d)
    (h : operand nested s c = .ok a c1) (ha : σ.Away m c1) (h' : operand nested' s d = .ok b d1)
    (hkey : pairKey? b ≠ none) (hcolon : d1.here.kind = .colon) : ToColon σ.more := by
  have hlike := hc.like
  rcases (operand_key h').2 hkey with hstring | hname
  · obtain rfl := operand_string hstring h'
    rw [← hlike.kind] at hstring
    obtain rfl := operand_string hstring h
    obtain ⟨k, k'⟩ := hc.taken (by rintro hk; simp [hk, TokenKind.isString] at hstring)
    refine hc.toColon k ha k' hcolon (by simp) ?_ (by simp)
    rw [List.forall_mem_singleton]
    rintro hk
    simp [hk, TokenKind.isString] at hstring
  · have hnamed' := (operand_named hname).1 h'
    rw [MayName, ← hlike.kind, ← hlike.keyword] at hname
    obtain ⟨_, _, hread, -, rfl⟩ := named_ok.1 ((operand_named hname).1 h)
    obtain ⟨_, _, hread', -, rfl⟩ := named_ok.1 hnamed'
    obtain ⟨ts, k, w, -⟩ := name_sound hc.reaches.ended hread
    obtain ⟨us, k', w', -⟩ := name_sound hc.ended hread'
    refine hc.toColon k ha k' hcolon w.ne_nil (fun t ht => ?_) fun u hu =>
      w'.kinds u (List.mem_of_mem_tail hu)
    rcases w.kinds t ht with hk | hk <;> simp [hk]

/-- Where both cursors stand on the colon of a pair and the other expression ends with the pair, so
does the first one. -/
theorem pair_of_near (hn : nested.Abreast σ.places n nested') (hc : σ.Near n c d)
    (hl : σ.Like left left') (h : Steps (climb nested min) s c left m e c')
    (hcolon : d.here.kind = .colon) (hpair : climb nested' min left' s d = .ok (some e') d')
    (hdone : climb nested' min e' s d' = .ok none d') : isPair e = true := by
  have hstops : ∀ o, ¬ Applies s min d'.here o := by
    obtain ⟨hstops, -⟩ | ⟨_, _, _, -, hnone⟩ := climb_ok.1 hdone
    · exact hstops
    · cases hnone
  have happlies : ∃ o, Applies s min c.here o := by
    obtain ⟨-, hnone, -⟩ | ⟨o, ho, -⟩ := climb_ok.1 hpair
    · cases hnone
    · exact ⟨o, hc.like.applies.2 ho⟩
  cases h with
  | done h =>
    obtain ⟨hnot, -⟩ | ⟨_, _, _, -, hnone⟩ := climb_ok.1 h
    · obtain ⟨o, ho⟩ := happlies
      exact absurd ho (hnot o)
    · cases hnone
  | @more _ c1 _ _ a _ _ h hs =>
    have ha : isPair a = true := by
      obtain ⟨-, hnone, -⟩ | ⟨o, ho, _, hx, heq⟩ := climb_ok.1 h
      · cases hnone
      obtain rfl := Option.some.inj heq
      obtain ⟨-, ⟨-, -, ha⟩ | ⟨hnot, -⟩⟩ := extend_pair ho.operator hx
      · exact ha
      · exact absurd (hc.like.kind.trans hcolon) hnot
    have hkept := (climb_abreast hn min hl _ hc.light).near (s := s) hc.tight
    rw [h, hpair] at hkept
    cases hs with
    | done => exact ha
    | more h' =>
      obtain ⟨-, hnone, -⟩ | ⟨o, ho, -⟩ := climb_ok.1 h'
      · cases hnone
      cases hkept with
      | ok _ hc1 => exact absurd (hc1.like.applies.1 ho) (hstops o)
      | gone hg =>
        cases hg with
        | ok _ haway =>
          have hop := ho.operator
          rcases haway.kind with hk | hk <;> rw [hk] at hop <;> cases hop

/-- An expression that is a pair in the other list alone was lost in the key of this pair. -/
theorem expr_key (hn : nested.Abreast σ.places n nested') (hc : σ.Near (n + 1) c d)
    (h : expr nested min s c = .ok e c') (hp : isPair e = false)
    (h' : expr nested' min s d = .ok e' d') (hp' : isPair e' = true) : ToColon σ.more := by
  obtain ⟨a, c1, ha, hi⟩ := expr_ok.1 h
  obtain ⟨b, d1, hb, hi'⟩ := expr_ok.1 h'
  obtain ⟨_, hsteps⟩ := steps_of_iterate hi
  obtain ⟨_, hsteps'⟩ := steps_of_iterate hi'
  obtain ⟨hkey, hcolon, hpair, hdone⟩ := steps_pair hsteps' (operand_key hb).1 hp'
  have hkept := (operand_abreast hn).near (s := s) hc
  rw [ha, hb] at hkept
  cases hkept with
  | ok hab hc1 => simp [pair_of_near hn hc1 hab hsteps hcolon hpair hdone] at hp
  | gone hg =>
    cases hg with
    | ok _ haway => exact toColon_of_operand hc ha haway hb hkey hcolon

end Key

end Parser

end Script
