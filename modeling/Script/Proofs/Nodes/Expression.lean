import Script.Proofs.Openings
import Script.Tree.Nodes

/-!
The nodes of a tree are written as tokens among those that the tree is written as: as neighbouring
tokens in them, or as the tokens of a hole in a string literal. So whatever passes from tokens to
their neighbours and to holes holds of the tokens of every node.
-/
namespace Script

/-- A property of tokens that passes to any neighbours among them and to the tokens of a hole. -/
structure Hereditary (P : List Token → Prop) : Prop where
  part : ∀ {us ts vs}, P (us ++ (ts ++ vs)) → P ts
  hole : ∀ {t ts d h us last}, P ts → t ∈ ts → t.kind.isString = true →
    decode t.text t.start = .ok d → .hole h ∈ d.pieces →
    Lexed.ofString h.start h.text = ⟨us, .ok last⟩ → P us

namespace Hereditary

variable {P : List Token → Prop} {t : Token} {ts us : List Token} (h : Hereditary P)
include h

theorem left (hp : P (ts ++ us)) : P ts := @part P h [] ts us hp

theorem right (hp : P (ts ++ us)) : P us :=
  @part P h ts us [] (by rwa [List.append_nil])

theorem tail (hp : P (t :: ts)) : P ts := @right P [t] ts h hp

end Hereditary

/-- The statements and `when`s of a tree are written as tokens with this property, and a string is
written as one of them. An entry of a node is written as one, which is narrower than any other
statement. -/
def Node.WrittenIn (P : List Token → Prop) : Node → Prop
  | .statement st => ∃ n ts, P ts ∧
    (st.Written (Rules.level n) .item ts ∨ st.EntryWritten (Rules.level n) .item ts)
  | .whenStmt w => ∃ n s ts, P ts ∧ w.Written (Rules.level n) s ts
  | .literal l => ∃ n t ts, P ts ∧ t ∈ ts ∧ t.kind.isString = true ∧ l.Written (Rules.level n) t
  | .object _ => True

/-- The nodes of what is nested inside a construct have the property of its tokens. -/
structure Rules.Nodes (P : List Token → Prop) (rules : Rules) : Prop where
  level : ∃ n, rules = Rules.level n
  expr : ∀ {s min e ts}, rules.expr s min e ts → P ts → ∀ x ∈ e.nodes, x.WrittenIn P
  value : ∀ {s min e ts}, rules.value s min e ts → P ts → ∀ x ∈ e.nodes, x.WrittenIn P
  statement : ∀ {st ts}, rules.statement .item st ts → P ts → ∀ x ∈ st.nodes, x.WrittenIn P

variable {P : List Token → Prop} {rules : Rules} {s : Surroundings} {min : Strength}
  {ts us : List Token}

/-- The items of a list are written as neighbours among its tokens. -/
theorem ListWritten.parts {α : Type} {separators : List TokenKind} {close : TokenKind}
    {written : α → List Token → Prop} {ends : List Token → α → Prop} {as : List α}
    (hh : Hereditary P) (h : ListWritten separators close written ends as ts) (hp : P ts) :
    ∀ a ∈ as, ∃ us, written a us ∧ P us := by
  induction h with
  | done => nofun
  | separated ha _ _ _ ih =>
    rw [List.forall_mem_cons]
    exact ⟨⟨_, ha, hh.left hp⟩, ih (hh.tail (hh.right hp))⟩
  | unseparated ha _ _ _ _ ih =>
    rw [List.forall_mem_cons]
    exact ⟨⟨_, ha, hh.left hp⟩, ih (hh.right hp)⟩

/-- The same where only the tokens before the closing one have the property. -/
theorem ListWritten.parts_dropLast {α : Type} {separators : List TokenKind} {close : TokenKind}
    {written : α → List Token → Prop} {ends : List Token → α → Prop} {as : List α}
    (hh : Hereditary P) (h : ListWritten separators close written ends as ts)
    (hp : P ts.dropLast) : ∀ a ∈ as, ∃ us, written a us ∧ P us := by
  induction h with
  | done => nofun
  | separated ha _ _ hs ih =>
    have hne := hs.ne_nil
    rw [List.dropLast_append_of_ne_nil (by simp), List.dropLast_cons_of_ne_nil hne] at hp
    rw [List.forall_mem_cons]
    exact ⟨⟨_, ha, hh.left hp⟩, ih (hh.tail (hh.right hp))⟩
  | unseparated ha _ _ _ _ ih =>
    rw [List.dropLast_append_of_ne_nil (by simp)] at hp
    rw [List.forall_mem_cons]
    exact ⟨⟨_, ha, hh.left hp⟩, ih (hh.right hp)⟩

theorem Expr.forall_nodesEach {Q : Node → Prop} {es : List Expr} :
    (∀ x ∈ Expr.nodesEach es, Q x) ↔ ∀ e ∈ es, ∀ x ∈ e.nodes, Q x := by
  induction es with
  | nil => simp [Expr.nodesEach]
  | cons e es ih => rw [Expr.nodesEach, List.forall_mem_append, List.forall_mem_cons, ih]

theorem Statement.forall_nodesEach {Q : Node → Prop} {ss : List Statement} :
    (∀ x ∈ Statement.nodesEach ss, Q x) ↔ ∀ s ∈ ss, ∀ x ∈ s.nodes, Q x := by
  induction ss with
  | nil => simp [Statement.nodesEach]
  | cons s ss ih => rw [Statement.nodesEach, List.forall_mem_append, List.forall_mem_cons, ih]

theorem EnumMember.forall_nodesEach {Q : Node → Prop} {ms : List EnumMember} :
    (∀ x ∈ EnumMember.nodesEach ms, Q x) ↔ ∀ m ∈ ms, ∀ x ∈ m.nodes, Q x := by
  induction ms with
  | nil => simp [EnumMember.nodesEach]
  | cons m ms ih => rw [EnumMember.nodesEach, List.forall_mem_append, List.forall_mem_cons, ih]

/-- A key has the nodes of the expression that it was read as. -/
theorem PairKey.nodes_eq {e : Expr} {key : PairKey} (h : Parser.pairKey? e = some key) :
    key.nodes = e.nodes := by
  obtain ⟨kind, span⟩ := e
  unfold Parser.pairKey? at h
  split at h
  · rename_i hk
    obtain rfl : kind = _ := hk
    obtain rfl := Option.some.inj h
    rfl
  · rename_i hk
    obtain rfl : kind = _ := hk
    split at h
    · cases h
    · obtain rfl := Option.some.inj h
      rfl
  · cases h

namespace Rules.Nodes

variable (hr : rules.Nodes P) (hh : Hereditary P)
include hr hh

theorem exprs {es : List Expr} {min : Strength} {ends : List Token → Expr → Prop}
    {separators : List TokenKind} {close : TokenKind}
    (h : ListWritten separators close (rules.expr s min) ends es ts) (hp : P ts) :
    ∀ x ∈ Expr.nodesEach es, x.WrittenIn P := by
  rw [Expr.forall_nodesEach]
  intro e he
  obtain ⟨us, hw, hp⟩ := h.parts hh hp e he
  exact hr.expr hw hp

theorem statements {ss : List Statement} {ends : List Token → Statement → Prop}
    {separators : List TokenKind} {close : TokenKind}
    (h : ListWritten separators close (rules.statement .item) ends ss ts) (hp : P ts) :
    ∀ x ∈ Statement.nodesEach ss, x.WrittenIn P := by
  rw [Statement.forall_nodesEach]
  intro st hst
  obtain ⟨us, hw, hp⟩ := h.parts hh hp st hst
  exact hr.statement hw hp

theorem block {body : Block} (h : body.Written rules ts) (hp : P ts) :
    ∀ x ∈ body.nodes, x.WrittenIn P := by
  cases h with
  | mk _ hs => exact hr.statements hh hs (hh.tail hp)

theorem parts {t : Token} {decoded : Decoded} (hk : t.kind.isString = true)
    (hd : decode t.text t.start = .ok decoded) (ht : t ∈ ts) (hp : P ts) {xs : List Piece}
    {ps : List StringPart} (h : StringPart.EachWritten rules xs ps)
    (hxs : ∀ x ∈ xs, x ∈ decoded.pieces) :
    ∀ x ∈ StringPart.nodesEach ps, x.WrittenIn P := by
  induction h with
  | nil => nofun
  | cons hpart _ ih =>
    rw [List.forall_mem_cons] at hxs
    rw [StringPart.nodesEach, List.forall_mem_append]
    refine ⟨?_, ih hxs.2⟩
    cases hpart with
    | text => nofun
    | nameHole => nofun
    | exprHole _ hl he => exact hr.value he (hh.hole hp ht hk hd hxs.1 hl)

theorem literal {t : Token} {l : StringLiteral} (h : l.Written rules t)
    (hk : t.kind.isString = true) (ht : t ∈ ts) (hp : P ts) : ∀ x ∈ l.nodes, x.WrittenIn P := by
  obtain ⟨n, rfl⟩ := hr.level
  have hself : Node.WrittenIn P (.literal l) := ⟨n, t, ts, hp, ht, hk, h⟩
  cases h with
  | mk hd hparts =>
    rw [StringLiteral.nodes, List.forall_mem_cons]
    exact ⟨hself, hr.parts hh hk hd ht hp hparts fun _ h => h⟩

theorem operand {e : Expr} (h : e.OperandWritten rules s ts) (hp : P ts) :
    ∀ x ∈ e.nodes, x.WrittenIn P := by
  cases h with
  | unary _ ho =>
    rw [Expr.nodes, ExprKind.nodes]
    exact hr.expr ho (hh.tail hp)
  | @word _ word _ _ hl => cases word <;> cases hl <;> nofun
  | name => nofun
  | number => nofun
  | string ht hl => exact hr.literal hh hl ht (by simp) hp
  | group _ hi =>
    rw [Expr.nodes, ExprKind.nodes]
    exact hr.expr hi (hh.left (hh.tail hp))
  | array _ hi =>
    rw [Expr.nodes, ExprKind.nodes, Expr.forall_nodesEach]
    intro e he
    obtain ⟨us, hw, hp⟩ := hi.parts hh (hh.tail hp) e he
    exact hr.value hw hp
  | object _ _ he =>
    rw [Expr.nodes, ExprKind.nodes, List.forall_mem_cons]
    exact ⟨trivial, hr.statements hh he (hh.tail hp)⟩

theorem trailing {o : Option Block} (h : Block.TrailingWritten rules s o ts) (hp : P ts) :
    ∀ x ∈ Block.nodesOption o, x.WrittenIn P := by
  cases h with
  | none => nofun
  | some _ _ hb => exact hr.block hh hb hp

theorem extend {left e : Expr} {o : Operator} (h : Expr.Extends rules s left o ts e) (hp : P ts)
    (hl : ∀ x ∈ left.nodes, x.WrittenIn P) : ∀ x ∈ e.nodes, x.WrittenIn P := by
  cases h with
  | binary _ hright =>
    rw [Expr.nodes, ExprKind.nodes, List.forall_mem_append]
    exact ⟨hl, hr.expr hright (hh.tail hp)⟩
  | comparison _ hright =>
    rw [Expr.nodes, ExprKind.nodes, List.forall_mem_append]
    exact ⟨hl, hr.expr hright (hh.tail hp)⟩
  | pair _ hk hv =>
    rw [Expr.nodes, ExprKind.nodes, List.forall_mem_append]
    refine ⟨?_, hr.value hv (hh.tail hp)⟩
    rwa [PairKey.nodes_eq hk]
  | transition => nofun
  | call _ ha hb =>
    rw [Expr.nodes, ExprKind.nodes, List.forall_mem_append, List.forall_mem_append]
    exact ⟨⟨hl, hr.exprs hh ha (hh.left (hh.tail hp))⟩,
      hr.trailing hh hb (hh.right (hh.tail hp))⟩

theorem written {e : Expr} (h : e.Written rules s min ts) (hp : P ts) :
    ∀ x ∈ e.nodes, x.WrittenIn P := by
  induction h with
  | operand he => exact hr.operand hh he hp
  | extend _ _ _ he ih => exact hr.extend hh he (hh.right hp) (ih (hh.left hp))

end Rules.Nodes

end Script
