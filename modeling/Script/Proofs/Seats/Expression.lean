import Script.Proofs.Exprs
import Script.Proofs.Seats

/-!
Where the expressions in an expression stand. A part that is written anew as other tokens leaves
what it is part of written anew, since the tokens around it stay and it begins and spans as before.
-/
namespace Script

open Token

variable {x : Accepted} {n : Nat} {s : Surroundings} {min : Strength} {t u : Token}
  {ts us : List Token} {es : List Expr}

/-- An expression of which all parts are of the program. It is known where it stands, unless it is
an `if` or a `when`. -/
structure Expr.Stands (x : Accepted) (e : Expr) : Prop where
  inside : ∀ e' ∈ e.exprs, e' ∈ x.program.exprs
  seat : ¬ e.IsControl → ∃ n s min ts, e.Written (Rules.level n) s min ts ∧
    Seat x s ts (e.Written (Rules.level n) s min)

/-- Expressions, of which it is known where they stand if all are expressions of the program. -/
def Accepted.Seats (x : Accepted) (es : List Expr) : Prop :=
  (∀ e ∈ es, e ∈ x.program.exprs) → ∀ e ∈ es, e.Stands x

namespace Accepted.Seats

theorem nil : x.Seats [] := fun _ => nofun

theorem append {es' : List Expr} (h : x.Seats es) (h' : x.Seats es') : x.Seats (es ++ es') := by
  intro hm
  rw [List.forall_mem_append] at hm ⊢
  exact ⟨h hm.1, h' hm.2⟩

/-- What is in the parentheses of a group stands there only if the group is of the program. -/
theorem self {e : Expr} (h : ¬ e.IsControl → ∃ n s min ts, e.Written (Rules.level n) s min ts ∧
    Seat x s ts (e.Written (Rules.level n) s min))
    (h' : (e.isGroup = true → e ∈ x.program.exprs) → x.Seats e.kind.exprs) : x.Seats e.exprs := by
  intro hm
  have hstands : e.Stands x := ⟨hm, h⟩
  rw [Expr.exprs_eq, List.forall_mem_cons] at hm ⊢
  exact ⟨hstands, h' (fun _ => hm.1) hm.2⟩

theorem exprs (h : ∀ e ∈ es, x.Seats e.exprs) : x.Seats (Expr.exprsEach es) := by
  intro hm
  rw [Expr.forall_exprsEach] at hm ⊢
  exact fun e he => h e he (hm e he)

theorem statements {ss : List Statement} (h : ∀ st ∈ ss, x.Seats st.exprs) :
    x.Seats (Statement.exprsEach ss) := by
  intro hm
  rw [Statement.forall_exprsEach] at hm ⊢
  exact fun st hst => h st hst (hm st hst)

end Accepted.Seats

/-- An item of a list that is written anew leaves the list written. -/
theorem ListWritten.replace {α : Type} {separators : List TokenKind} {close : TokenKind}
    {written : α → List Token → Prop} {ends : List Token → α → Prop} {as : List α}
    (h : ListWritten separators close written ends as ts)
    (halike : ∀ ⦃r r' a⦄, Alike r r' → ends r a → ends r' a) :
    ∀ a ∈ as, ∃ before us after, ts = before ++ (us ++ after) ∧ after ≠ [] ∧ written a us ∧
      ∀ us', Rebroken us us' → written a us' →
        ListWritten separators close written ends as (before ++ (us' ++ after)) := by
  induction h with
  | done => nofun
  | @separated a as t ts us ha he ht hs ih =>
    rw [List.forall_mem_cons]
    refine ⟨⟨[], ts, t :: us, rfl, by simp, ha, fun _ _ ha => .separated ha he ht hs⟩,
      fun b hb => ?_⟩
    obtain ⟨before, vs, after, rfl, hne, hw, hreplace⟩ := ih b hb
    refine ⟨ts ++ t :: before, vs, after, by simp, hne, hw, fun us' hre hw => ?_⟩
    have halike := halike (((hre.left after).right before).cons t).alike he
    simpa using ListWritten.separated ha halike ht (hreplace us' hre hw)
  | @unseparated a as t ts us ha he ht hb hs ih =>
    rw [List.forall_mem_cons]
    refine ⟨⟨[], ts, t :: us, rfl, by simp, ha, fun _ _ ha => .unseparated ha he ht hb hs⟩,
      fun b hmem => ?_⟩
    obtain ⟨before, vs, after, hsplit, hne, hw, hreplace⟩ := ih b hmem
    refine ⟨ts ++ before, vs, after, by rw [hsplit]; simp, hne, hw, fun us' hre hw => ?_⟩
    have hre' := (hre.left after).right before
    rw [← hsplit] at hre'
    obtain ⟨rest, hrest⟩ := hre'.front
    have hlist := hreplace us' hre hw
    rw [hrest] at hre' hlist
    rw [List.append_assoc, hrest]
    exact .unseparated ha (halike hre'.alike he) ht hb hlist

/-- Where the items of a list stand. -/
theorem Seat.items {α : Type} {separators : List TokenKind} {close : TokenKind}
    {written : α → List Token → Prop} {ends : List Token → α → Prop} {as : List α}
    (hseat : Seat x .item ts (ListWritten separators close written ends as))
    (h : ListWritten separators close written ends as ts)
    (halike : ∀ ⦃r r' a⦄, Alike r r' → ends r a → ends r' a) :
    ∀ a ∈ as, ∃ us, written a us ∧ Seat x .item us (written a) := by
  intro a ha
  obtain ⟨before, us, after, rfl, -, hw, hreplace⟩ := h.replace halike a ha
  exact ⟨us, hw, hseat.item.left.imp id hreplace⟩

/-- Where the expressions of what is nested inside a construct stand. -/
structure Rules.Seated (x : Accepted) (rules : Rules) : Prop where
  balancing : rules.Balancing
  expr : ∀ {s min e ts}, rules.expr s min e ts → Seat x s ts (rules.expr s min e) →
    x.Seats e.exprs
  value : ∀ {s min e ts}, rules.value s min e ts → Seat x s ts (rules.value s min e) →
    x.Seats e.exprs
  statement : ∀ {s st ts}, rules.statement s st ts → Seat x s ts (rules.statement s st) →
    x.Seats st.exprs

namespace Rules.Seated

variable {rules : Rules} (hr : rules.Seated x)
include hr

theorem exprs {ends : List Token → Expr → Prop} {separators : List TokenKind} {close : TokenKind}
    (h : ListWritten separators close (rules.expr .item min) ends es ts)
    (halike : ∀ ⦃r r' a⦄, Alike r r' → ends r a → ends r' a)
    (hseat : Seat x .item ts (ListWritten separators close (rules.expr .item min) ends es)) :
    x.Seats (Expr.exprsEach es) := by
  refine .exprs fun e he => ?_
  obtain ⟨us, hw, hseat⟩ := hseat.items h halike e he
  exact hr.expr hw hseat

theorem statements {ss : List Statement} {ends : List Token → Statement → Prop}
    {separators : List TokenKind} {close : TokenKind}
    (h : ListWritten separators close (rules.statement .item) ends ss ts)
    (halike : ∀ ⦃r r' a⦄, Alike r r' → ends r a → ends r' a)
    (hseat : Seat x .item ts (ListWritten separators close (rules.statement .item) ends ss)) :
    x.Seats (Statement.exprsEach ss) := by
  refine .statements fun st hst => ?_
  obtain ⟨us, hw, hseat⟩ := hseat.items h halike st hst
  exact hr.statement hw hseat

theorem block {body : Block} (h : body.Written rules ts)
    (hseat : Seat x s ts (body.Written rules)) : x.Seats body.exprs := by
  cases h with
  | mk ht hs =>
    refine hr.statements hs (fun _ _ _ h hst => h.statement hst) (hseat.inside.imp id ?_)
    intro us hre hs
    rw [← (hre.cons _).spanOf]
    exact .mk ht hs

theorem parts {decoded : Decoded} {v : List Token → Prop} (hk : t.kind.isString = true)
    (hd : decode t.text t.start = .ok decoded) (ht : t ∈ ts) (hseat : Seat x s ts v)
    {xs : List Piece} {ps : List StringPart} (h : StringPart.EachWritten rules xs ps)
    (hxs : ∀ p ∈ xs, p ∈ decoded.pieces) : x.Seats (StringPart.exprsEach ps) := by
  induction h with
  | nil => exact .nil
  | cons hpart _ ih =>
    rw [List.forall_mem_cons] at hxs
    rw [StringPart.exprsEach]
    refine .append ?_ (ih hxs.2)
    cases hpart with
    | text => exact .nil
    | nameHole => exact .nil
    | exprHole _ hl he => exact hr.value he (hseat.inHole ht hk hd hxs.1 hl)

theorem operand {e : Expr} (h : e.OperandWritten rules s ts)
    (hseat : Seat x s ts (e.OperandWritten rules s))
    (hself : e.isGroup = true → e ∈ x.program.exprs) : x.Seats e.kind.exprs := by
  cases h with
  | unary ht ho =>
    refine hr.expr ho ((hseat.tail (UnaryOp.plain_of_kind ht)).imp id ?_)
    exact fun _ _ ho => .unary ht ho
  | @word _ word _ _ hl => cases word <;> cases hl <;> exact .nil
  | name => exact .nil
  | number => exact .nil
  | string ht hl =>
    cases hl with
    | mk hd hp => exact hr.parts ht hd (List.mem_singleton_self _) hseat hp fun _ h => h
  | @group t u ts inner ht hi hu =>
    have hopens : x.program.OpensGroup t := ⟨_, hself rfl, rfl, rfl⟩
    refine hr.expr hi ((hseat.group ht hopens).imp id fun us hre hi => ?_)
    rw [← ((hre.left [u]).cons t).spanOf]
    exact .group ht hi hu
  | @array t ts items ht hi =>
    refine .exprs fun e he => ?_
    have hlist : Seat x .item ts (ListWritten [.comma] .closeBracket (rules.value .item .group)
        (Expr.ClosesValue .item .group) items) := by
      refine hseat.inside.imp id fun us hre hi => ?_
      rw [← (hre.cons t).spanOf]
      exact .array ht hi
    obtain ⟨us, hw, hseat⟩ := hlist.items hi (fun _ _ _ h he => he.mono h.looser) e he
    exact hr.value hw hseat
  | @object t ts entries ht hs he =>
    refine hr.statements he (fun _ _ _ h hst => h.statement hst) (hseat.inside.imp id ?_)
    intro us hre he
    rw [← (hre.cons t).spanOf]
    exact .object ht hs he

theorem trailing {o : Option Block} (h : Block.TrailingWritten rules s o ts)
    (hseat : Seat x s ts (Block.TrailingWritten rules s o)) : x.Seats (Block.exprsOption o) := by
  cases h with
  | none => exact .nil
  | some hs hc hb =>
    exact hr.block hb (hseat.imp id fun us hre hb => .some hs (hre.continues hc) hb)

theorem extend {left e : Expr} {o : Operator} (h : Expr.Extends rules s left o (t :: ts) e)
    (ht : Operator.ofKind? t.kind = some o)
    (hseat : Seat x s (t :: ts) fun r => Expr.Extends rules s left o r e)
    (hl : x.Seats left.exprs) (hkey : left.isGroup = false → x.Seats left.kind.exprs) :
    x.Seats e.kind.exprs := by
  cases h with
  | binary ho hw =>
    have hplain := Operator.plain_of_kind ht (by simp [ho])
    refine .append hl (hr.expr hw ((hseat.tail hplain).imp id fun us hre hw => ?_))
    exact .binary ho hw
  | comparison ho hw =>
    have hplain := Operator.plain_of_kind ht (by simp [ho])
    refine .append hl (hr.expr hw ((hseat.tail hplain).imp id fun us hre hw => ?_))
    exact .comparison ho hw
  | pair ho hk hv =>
    have hplain := Operator.plain_of_kind ht (by simp [ho])
    rw [ExprKind.exprs, PairKey.exprs_eq hk]
    refine .append (hkey ?_) (hr.value hv ((hseat.tail hplain).imp id fun us hre hv => ?_))
    · unfold Parser.pairKey? at hk
      unfold Expr.isGroup
      split at hk <;> simp_all
    · exact .pair ho hk hv
  | transition => exact .nil
  | @call args body _ ts us ho ha hb =>
    have hopen := Operator.opener_of_kind ht ho
    have hargs := ha.enclosed hopen (by decide) rfl hr.balancing.expr
    rw [ExprKind.exprs]
    refine .append (.append hl ?_) (hr.trailing hb ?_)
    · refine hr.exprs ha (fun _ _ _ h he => he.mono h.looser) (hseat.inside.left.imp id ?_)
      intro vs hre ha
      rw [← ((hre.left us).cons t).spanFrom]
      exact .call ho ha hb
    · refine (@Seat.right x s (t :: ts) us _ hseat hargs).imp id fun vs hre hb => ?_
      rw [← ((hre.right ts).cons t).spanFrom]
      exact .call ho ha hb

end Rules.Seated

namespace Rules.Seated

variable (hr : (Rules.level n).Seated x)
include hr

theorem inside {e : Expr} (h : e.Written (Rules.level n) s min ts) :
    Seat x s ts (e.Written (Rules.level n) s min) → (e.isGroup = true → e ∈ x.program.exprs) →
      x.Seats e.kind.exprs := by
  induction h with
  | operand he => exact fun hseat => hr.operand he (hseat.imp id fun _ _ he => .operand he)
  | @extend left e o t ts us hl hle ho he ih =>
    intro hseat _
    have hleft := hseat.left.imp id fun vs hre hl => .extend hl hle ho he
    refine hr.extend he ho.operator ?_ (.self (fun _ => ⟨n, s, min, ts, hl, hleft⟩) (ih hleft))
      fun hg => ih hleft (by simp [hg])
    refine (hseat.right (hl.balanced hr.balancing)).imp id fun vs hre he => ?_
    obtain ⟨vs, rfl⟩ := hre.front
    exact .extend hl (hle.mono hre.alike.looser) ho he

theorem written {e : Expr} (h : e.Written (Rules.level n) s min ts)
    (hseat : Seat x s ts (e.Written (Rules.level n) s min)) : x.Seats e.exprs :=
  .self (fun _ => ⟨n, s, min, ts, h, hseat⟩) (hr.inside h hseat)

end Rules.Seated

end Script
