import Script.Proofs.Renamed.Names

/-!
Expressions with an identifier spelled anew. String literals stay as they are.
-/
namespace Script

/-- What is nested inside a construct is written again when an identifier is spelled anew. -/
structure Rules.Renames (r : Renaming) (rules : Rules) : Prop where
  expr : ∀ {s min e ts}, rules.expr s min e ts →
    rules.expr s min (e.mapIdents r.ident) (r.tokens ts)
  value : ∀ {s min e ts}, rules.value s min e ts →
    rules.value s min (e.mapIdents r.ident) (r.tokens ts)
  statement : ∀ {s st ts}, rules.statement s st ts →
    rules.statement s (st.mapIdents r.ident) (r.tokens ts)

section Each

variable (f : Ident → Ident)

theorem Expr.mapIdentsEach_eq (es : List Expr) :
    Expr.mapIdentsEach f es = es.map (Expr.mapIdents f) := by
  induction es with
  | nil => rfl
  | cons e es ih => rw [Expr.mapIdentsEach, ih, List.map_cons]

theorem Statement.mapIdentsEach_eq (ss : List Statement) :
    Statement.mapIdentsEach f ss = ss.map (Statement.mapIdents f) := by
  induction ss with
  | nil => rfl
  | cons s ss ih => rw [Statement.mapIdentsEach, ih, List.map_cons]

theorem EnumMember.mapIdentsEach_eq (ms : List EnumMember) :
    EnumMember.mapIdentsEach f ms = ms.map (EnumMember.mapIdents f) := by
  induction ms with
  | nil => rfl
  | cons m ms ih => rw [EnumMember.mapIdentsEach, ih, List.map_cons]

theorem Expr.mapIdents_span (e : Expr) : (e.mapIdents f).span = e.span := by
  cases e
  rfl

theorem PairKey.mapIdents_eq {e : Expr} {key : PairKey} (h : Parser.pairKey? e = some key) :
    Parser.pairKey? (e.mapIdents f) = some (key.mapIdents f) := by
  obtain ⟨kind, span⟩ := e
  unfold Parser.pairKey? at h
  split at h
  · rename_i hk
    obtain rfl : kind = _ := hk
    obtain rfl := Option.some.inj h
    rfl
  · rename_i literal hk
    obtain rfl : kind = _ := hk
    split at h
    · cases h
    · rename_i hform
      obtain rfl := Option.some.inj h
      exact if_neg hform
  · cases h

end Each

variable {r : Renaming} {rules : Rules} {s : Surroundings} {min : Strength} {ts us : List Token}
  (hr : rules.Renames r)
include hr

theorem Block.Written.rename {body : Block} (h : body.Written rules ts) :
    (body.mapIdents r.ident).Written rules (r.tokens ts) := by
  cases h with
  | mk ht hs =>
    rw [Block.mapIdents, ← r.spanOf_tokens, Statement.mapIdentsEach_eq]
    exact .mk ht (hs.rename (fun _ _ => hr.statement)
      fun st us h => st.endsBefore_mapIdents.2 ((r.alike us).statement h))

theorem Expr.OperandWritten.rename {e : Expr} (h : e.OperandWritten rules s ts) :
    (e.mapIdents r.ident).OperandWritten rules s (r.tokens ts) := by
  cases h with
  | @unary op t ts operand ht ho =>
    rw [Expr.mapIdents, ExprKind.mapIdents, ← r.token_span, ← operand.mapIdents_span r.ident]
    exact .unary ht (hr.expr ho)
  | word ht hl =>
    rw [r.tokens_cons, r.token_of_keyword ht]
    exact .word ht hl
  | name hn => exact .name hn.rename
  | number ht =>
    rw [r.tokens_cons, r.token_of_kind (by simp [ht])]
    exact .number ht
  | string ht hl =>
    rw [r.tokens_cons, r.token_of_string ht]
    exact .string ht hl
  | group ht hi hu =>
    rw [Expr.mapIdents, ExprKind.mapIdents, ← r.spanOf_tokens]
    simp only [r.tokens_cons, r.tokens_append, r.tokens_nil]
    exact .group ht (hr.expr hi) hu
  | array ht hi =>
    rw [Expr.mapIdents, ExprKind.mapIdents, ← r.spanOf_tokens, Expr.mapIdentsEach_eq]
    exact .array ht (hi.rename (fun _ _ => hr.value)
      fun e us h => e.closesValue_mapIdents.2 (h.mono (r.alike us).looser))
  | object ht hs he =>
    rw [Expr.mapIdents, ExprKind.mapIdents, ← r.spanOf_tokens, Statement.mapIdentsEach_eq]
    exact .object ht hs (he.rename (fun _ _ => hr.statement)
      fun st us h => st.endsBefore_mapIdents.2 ((r.alike us).statement h))

theorem Block.TrailingWritten.rename {o : Option Block} (h : Block.TrailingWritten rules s o ts) :
    Block.TrailingWritten rules s (Block.mapIdentsOption r.ident o) (r.tokens ts) := by
  cases h with
  | none => exact .none
  | some hs hc hb => exact .some hs hc.rename (hb.rename hr)

/-- The arguments of a call or of an import. -/
theorem Expr.rename_arguments {args : List Expr}
    (h : ListWritten [.comma] .closeParen (rules.expr .item .group) (Expr.Closes .item .group)
      args ts) :
    ListWritten [.comma] .closeParen (rules.expr .item .group) (Expr.Closes .item .group)
      (Expr.mapIdentsEach r.ident args) (r.tokens ts) := by
  rw [Expr.mapIdentsEach_eq]
  exact h.rename (fun _ _ => hr.expr)
    fun e us h => e.closes_mapIdents.2 (h.mono (r.alike us).looser)

theorem Expr.Extends.rename {left e : Expr} {o : Operator}
    (h : Expr.Extends rules s left o us e) :
    Expr.Extends rules s (left.mapIdents r.ident) o (r.tokens us) (e.mapIdents r.ident) := by
  cases h with
  | @binary op t us right ho hright =>
    rw [Expr.mapIdents, ExprKind.mapIdents, ← left.mapIdents_span r.ident,
      ← right.mapIdents_span r.ident]
    exact .binary ho (hr.expr hright)
  | @comparison op t us right ho hright =>
    rw [Expr.mapIdents, ExprKind.mapIdents, ← left.mapIdents_span r.ident,
      ← right.mapIdents_span r.ident]
    exact .comparison ho (hr.expr hright)
  | @pair key t us value ho hk hv =>
    rw [Expr.mapIdents, ExprKind.mapIdents, ← left.mapIdents_span r.ident,
      ← value.mapIdents_span r.ident]
    exact .pair ho (PairKey.mapIdents_eq _ hk) (hr.value hv)
  | transition ho hs ht =>
    obtain ⟨kind, span⟩ := left
    obtain rfl : kind = _ := hs
    exact .transition ho rfl ht.rename
  | call ho ha hb =>
    rw [Expr.mapIdents, ExprKind.mapIdents, ← r.spanFrom_tokens, ← left.mapIdents_span r.ident]
    simp only [r.tokens_cons, r.tokens_append]
    exact .call ho (Expr.rename_arguments hr ha) (hb.rename hr)

theorem Expr.Written.rename {e : Expr} (h : e.Written rules s min ts) :
    (e.mapIdents r.ident).Written rules s min (r.tokens ts) := by
  induction h with
  | operand he => exact .operand (he.rename hr)
  | @extend left e o t ts us hl hle ho he ih =>
    rw [r.tokens_append, r.tokens_cons]
    refine .extend ih ?_ ⟨ho.sameLine, ho.operator, ho.strong⟩ (he.rename hr)
    exact left.endsBefore_mapIdents.2 (hle.mono (r.alike (t :: us)).looser)

end Script
