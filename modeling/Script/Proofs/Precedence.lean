import Script.Proofs.Complete.Statement
import Script.Proofs.Exprs

/-!
Which operators may stand inside which. An operand is read at a level that its operator asks for,
and what has been read is not gone on with by an operator that is too strong. A transition has no
such end of its own, and neither has the value of a pair that is a control construct: any operator
goes on with these.
-/
namespace Script

/-- How strongly the operator of an expression binds. What needs no parentheses anywhere is as strong
as a call, and a control construct is weaker than any operator. -/
def Expr.level (e : Expr) : Strength :=
  match e.kind with
  | .transition _ _ => .transition
  | .pair _ _ => .pair
  | .comparison _ _ _ _ => .comparison
  | .binary op _ _ _ => op.strength
  | .unary _ _ => .unary
  | .ifExpr _ | .whenExpr _ => .group
  | _ => .call

/-- A transition, or a pair whose value is a control construct. -/
def Expr.EndsLoosely (e : Expr) : Prop :=
  match e.kind with
  | .transition _ _ => True
  | .pair _ value => value.IsControl
  | _ => False

/-- The operands of an expression have the levels that its operator asks for, except that some may
be left operands and callees at any level. -/
def Expr.Graded (exempt : Expr → Prop) (e : Expr) : Prop :=
  match e.kind with
  | .unary _ operand => .unary ≤ operand.level
  | .binary op _ left right => (op.strength ≤ left.level ∨ exempt left) ∧ op.strength < right.level
  | .comparison _ _ left right =>
    (.comparison ≤ left.level ∨ exempt left) ∧ .comparison < right.level
  | .call callee _ _ => .call ≤ callee.level ∨ exempt callee
  | _ => True

instance (exempt : Expr → Prop) [DecidablePred exempt] (e : Expr) : Decidable (e.Graded exempt) :=
  match e with
  | ⟨.unary _ operand, _⟩ => inferInstanceAs (Decidable (.unary ≤ operand.level))
  | ⟨.binary op _ left right, _⟩ =>
    inferInstanceAs (Decidable ((op.strength ≤ left.level ∨ exempt left) ∧ op.strength < right.level))
  | ⟨.comparison _ _ left right, _⟩ =>
    inferInstanceAs
      (Decidable ((.comparison ≤ left.level ∨ exempt left) ∧ .comparison < right.level))
  | ⟨.call callee _ _, _⟩ => inferInstanceAs (Decidable (.call ≤ callee.level ∨ exempt callee))
  | ⟨.name _, _⟩ | ⟨.literal _, _⟩ | ⟨.group _, _⟩ | ⟨.pair _ _, _⟩ | ⟨.object _, _⟩
  | ⟨.array _, _⟩ | ⟨.transition _ _, _⟩ | ⟨.ifExpr _, _⟩ | ⟨.whenExpr _, _⟩ => isTrue trivial

/-- All expressions of a program, at every depth, have operands of the levels they ask for. -/
def Program.Graded (exempt : Expr → Prop) (p : Program) : Prop := ∀ e ∈ p.exprs, e.Graded exempt

instance (exempt : Expr → Prop) [DecidablePred exempt] (p : Program) :
    Decidable (p.Graded exempt) :=
  inferInstanceAs (Decidable (∀ e ∈ p.exprs, e.Graded exempt))

variable {n : Nat} {s : Surroundings} {min : Strength} {ts us : List Token} {t : Token}
  {o : Operator} {e left : Expr}

namespace Strength

variable {a b c : Strength}

theorem not_lt : ¬ a < b ↔ b ≤ a := Nat.not_lt

theorem le_of_lt (h : a < b) : a ≤ b := Nat.le_of_lt h

theorem le_trans (h : a ≤ b) (h' : b ≤ c) : a ≤ c := Nat.le_trans h h'

theorem lt_of_lt_of_le (h : a < b) (h' : b ≤ c) : a < c := Nat.lt_of_lt_of_le h h'

theorem lt_of_le_of_ne (h : a ≤ b) (hne : a ≠ b) : a < b := by
  cases a <;> cases b <;> first | decide | exact absurd h (by decide) | exact absurd rfl hne

theorem group_le (a : Strength) : group ≤ a := Nat.zero_le _

theorem le_call (a : Strength) : a ≤ call := by
  cases a <;> decide

/-- What is stronger than an operator may be its right operand. -/
theorem tighter_le (h : a < b) : a.tighter ≤ b := by
  cases a <;> cases b <;> first | decide | exact absurd h (by decide)

/-- What is too weak to be a right operand is no stronger than the operator. -/
theorem le_of_lt_rightMin {assoc : Assoc} (h : a < b.rightMin assoc) : a ≤ b := by
  cases assoc with
  | left => cases a <;> cases b <;> first | decide | exact absurd h (by decide)
  | right => exact le_of_lt h

end Strength

theorem BinaryOp.strength_ne_call (op : BinaryOp) : op.strength ≠ .call := by
  cases op <;> decide

/-- No operator between operands is as strong as one before its operand. -/
theorem Operator.strength_ne_unary {k : TokenKind} (h : ofKind? k = some o) :
    o.strength ≠ .unary := by
  obtain ⟨op, rfl⟩ | ⟨op, rfl⟩ | ⟨-, rfl⟩ | ⟨-, rfl⟩ | ⟨-, rfl⟩ := Parser.operator_cases h
  · cases op <;> decide
  all_goals simp

/-- Every operator is at least as strong as a transition. -/
theorem Operator.transition_le {k : TokenKind} (h : ofKind? k = some o) :
    .transition ≤ o.strength := by
  obtain ⟨op, rfl⟩ | ⟨op, rfl⟩ | ⟨-, rfl⟩ | ⟨-, rfl⟩ | ⟨-, rfl⟩ := Parser.operator_cases h
  · cases op <;> decide
  · exact (by decide : Strength.transition ≤ .comparison)
  all_goals decide

/-- The operator that goes on with an expression is the operator of the result, if it is not a call. -/
theorem Expr.Extends.min_le_level {rules : Rules} (h : Expr.Extends rules s left o ts e)
    (ho : Applies s min t o) : min ≤ e.level := by
  have hmin : min ≤ o.strength := Strength.not_lt.1 ho.strong
  obtain ⟨op, rfl⟩ | ⟨op, rfl⟩ | ⟨-, rfl⟩ | ⟨-, rfl⟩ | ⟨-, rfl⟩ := Parser.operator_cases ho.operator
  all_goals
    cases h with
    | binary hop => cases hop <;> exact hmin
    | comparison hop => cases hop <;> exact hmin
    | pair hop => cases hop <;> exact hmin
    | transition hop => cases hop <;> exact hmin
    | call hop => cases hop <;> exact hmin

/-- What is read at a level is at least as strong. -/
theorem Expr.Written.min_le_level {rules : Rules} (h : e.Written rules s min ts)
    (hmin : min ≤ .unary) : min ≤ e.level := by
  cases h with
  | operand he =>
    cases he with
    | unary => exact hmin
    | _ => exact Strength.le_call min
  | extend _ _ ho he => exact he.min_le_level ho

theorem Rules.min_le_level (h : (Rules.level n).expr s min e ts) (hmin : min ≤ .unary) :
    min ≤ e.level := by
  cases n with
  | zero => exact False.elim h
  | succ n => exact Expr.Written.min_le_level h hmin

/-- An operator goes on only with what is as strong as itself, or has no end of its own. -/
theorem Expr.EndsBefore.strength_le (h : left.EndsBefore s (t :: us)) (ho : Applies s min t o)
    (hc : ¬ left.IsControl) : o.strength ≤ left.level ∨ left.EndsLoosely := by
  have hlt : ∀ {m}, Stops s m (t :: us) → o.strength < m := by
    intro m hstops
    refine Decidable.byContradiction fun hweak => ?_
    exact hstops t rfl o ⟨ho.sameLine, ho.operator, hweak⟩
  obtain ⟨kind, span⟩ := left
  cases kind with
  | unary op operand => exact .inl (Strength.le_of_lt (hlt h.2))
  | binary op assoc l r =>
    exact .inl (Strength.le_of_lt_rightMin (hlt h.2))
  | comparison op assoc l r =>
    exact .inl (Strength.le_of_lt_rightMin (hlt h.2))
  | pair key value =>
    by_cases hv : value.IsControl
    · exact .inr hv
    · exact absurd (Operator.transition_le ho.operator) (Nat.not_le.2 (hlt (h.2 hv)))
  | transition source target => exact .inr trivial
  | ifExpr stmt => exact absurd trivial hc
  | whenExpr stmt => exact absurd trivial hc
  | _ => exact .inl (Strength.le_call _)

theorem Expr.Extends.graded (h : Expr.Extends (Rules.level n) s left o (t :: us) e)
    (hl : left.EndsBefore s (t :: us)) (hc : ¬ left.IsControl) (ho : Applies s min t o) :
    e.Graded Expr.EndsLoosely := by
  have hleft := hl.strength_le ho hc
  obtain ⟨op, rfl⟩ | ⟨op, rfl⟩ | ⟨-, rfl⟩ | ⟨-, rfl⟩ | ⟨-, rfl⟩ := Parser.operator_cases ho.operator
  · cases h with
    | binary hop hright =>
      cases hop
      have hlt := Strength.lt_tighter op.strength op.strength_ne_call
      exact ⟨hleft, Strength.lt_of_lt_of_le hlt (Rules.min_le_level hright (by cases op <;> decide))⟩
    | _ hop => cases hop
  · cases h with
    | comparison hop hright =>
      cases hop
      have hlt := Strength.lt_tighter .comparison nofun
      exact ⟨hleft, Strength.lt_of_lt_of_le hlt (Rules.min_le_level hright (by decide))⟩
    | _ hop => cases hop
  · cases h with
    | pair => trivial
    | _ hop => cases hop
  · cases h with
    | transition => trivial
    | _ hop => cases hop
  · cases h with
    | call => exact hleft
    | _ hop => cases hop

theorem Expr.ValueWritten.graded (h : e.ValueWritten (Rules.level n) s min ts) :
    e.Graded Expr.EndsLoosely := by
  cases h with
  | ifExpr => trivial
  | whenExpr => trivial
  | expr he =>
    cases he with
    | operand ho =>
      cases ho with
      | unary _ hoperand => exact Rules.min_le_level hoperand (by decide)
      | _ => trivial
    | extend hl hle ho he => exact he.graded hle hl.not_control ho

namespace Program

/-- In every program, the operands of all expressions are as strong as their operators ask for,
except that a transition and a pair with a control construct may be on the left of any operator. -/
theorem parse_graded {source : String} {p : Program} (h : parse source = .ok p) :
    p.Graded Expr.EndsLoosely := by
  obtain ⟨ts, last, -, w⟩ := parse_iff.1 h
  exact w.exprs Expr.ValueWritten.graded

theorem parse_graded_sum :
    ∃ p, parse "a -> b + -c * d(1)(2) == (e: 3)" = .ok p ∧ p.Graded Expr.EndsLoosely := by
  obtain ⟨p, hp⟩ : ∃ p, parse "a -> b + -c * d(1)(2) == (e: 3)" = .ok p :=
    exists_of_isOk (by decide +kernel)
  exact ⟨p, hp, parse_graded hp⟩

theorem exists_not_graded {source : String}
    (h : (parse source).toOption.any (fun p => ! decide (p.Graded fun _ => False)) = true) :
    ∃ p, parse source = .ok p ∧ ¬ p.Graded fun _ => False := by
  obtain ⟨p, hp, hgraded⟩ := (Option.any_eq_true _ _).1 h
  exact ⟨p, eq_ok_of_toOption hp, by simpa using hgraded⟩

/-- Both exceptions occur, on the left of operators and as callees. -/
theorem not_graded :
    (∃ p, parse "a -> b + c" = .ok p ∧ ¬ p.Graded fun _ => False) ∧
      (∃ p, parse "a -> b(1)" = .ok p ∧ ¬ p.Graded fun _ => False) ∧
      (∃ p, parse "a: if x \x7b \x7d == 2" = .ok p ∧ ¬ p.Graded fun _ => False) ∧
      ∃ p, parse "a: when x \x7b \x7d (1)" = .ok p ∧ ¬ p.Graded fun _ => False :=
  ⟨exists_not_graded (by decide +kernel), exists_not_graded (by decide +kernel),
    exists_not_graded (by decide +kernel), exists_not_graded (by decide +kernel)⟩

end Program

end Script
