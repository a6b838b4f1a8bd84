import Script.Token.Kind
import Script.Tree.Operator

/-!
How strongly operators bind. Operators are data: a table gives each operator token its strength, its
associativity and what it builds, and one loop over this table reads all expressions.
-/
namespace Script

/-- Binding strengths, weakest first. No operator has the strengths `group` and `assign`; they are
the inside of parentheses and the assignment statement. -/
inductive Strength where
  | group
  | assign
  | transition
  | pair
  | comparison
  | additive
  | multiplicative
  | unary
  | call
deriving DecidableEq, Repr, Inhabited

namespace Strength

def all : List Strength :=
  [group, assign, transition, pair, comparison, additive, multiplicative, unary, call]

def rank : Strength → Nat
  | group => 0
  | assign => 1
  | transition => 2
  | pair => 3
  | comparison => 4
  | additive => 5
  | multiplicative => 6
  | unary => 7
  | call => 8

instance : LT Strength := ⟨fun a b => a.rank < b.rank⟩

instance : LE Strength := ⟨fun a b => a.rank ≤ b.rank⟩

instance (a b : Strength) : Decidable (a < b) := inferInstanceAs (Decidable (a.rank < b.rank))

instance (a b : Strength) : Decidable (a ≤ b) := inferInstanceAs (Decidable (a.rank ≤ b.rank))

/-- The next stronger level; nothing is stronger than a call. -/
def tighter : Strength → Strength
  | group => assign
  | assign => transition
  | transition => pair
  | pair => comparison
  | comparison => additive
  | additive => multiplicative
  | multiplicative => unary
  | unary => call
  | call => call

/-- The levels below one, weakest first. -/
def below (s : Strength) : List Strength := all.filter (· < s)

theorem lt_tighter (s : Strength) (h : s ≠ call) : s < s.tighter := by
  cases s <;> first | decide | exact absurd rfl h

/-- The weakest level that the right operand of an operator of this strength may have. -/
def rightMin (s : Strength) : Assoc → Strength
  | .left => s.tighter
  | .right => s

end Strength

/-- What an operator between or after operands builds. -/
inductive InfixOp where
  | binary (op : BinaryOp)
  | compare (op : CompareOp)
  | pair
  | transition
  | call
deriving DecidableEq, Repr

/-- The text of an arithmetic or comparison operator. -/
def InfixOp.symbol : InfixOp → String
  | binary op => op.symbol
  | compare op => op.symbol
  | _ => ""

structure Operator where
  strength : Strength
  assoc : Assoc
  op : InfixOp
deriving DecidableEq, Repr

namespace Operator

def table : List (TokenKind × Operator) := [
  (.arrow, ⟨.transition, .left, .transition⟩),
  (.colon, ⟨.pair, .left, .pair⟩),
  (.eq, ⟨.comparison, .left, .compare .eq⟩),
  (.ne, ⟨.comparison, .left, .compare .ne⟩),
  (.lt, ⟨.comparison, .left, .compare .lt⟩),
  (.le, ⟨.comparison, .left, .compare .le⟩),
  (.gt, ⟨.comparison, .left, .compare .gt⟩),
  (.ge, ⟨.comparison, .left, .compare .ge⟩),
  (.plus, ⟨.additive, .left, .binary .add⟩),
  (.minus, ⟨.additive, .left, .binary .sub⟩),
  (.star, ⟨.multiplicative, .left, .binary .mul⟩),
  (.slash, ⟨.multiplicative, .left, .binary .div⟩),
  (.openParen, ⟨.call, .right, .call⟩)]

def ofKind? (kind : TokenKind) : Option Operator := table.lookup kind

def rightMin (o : Operator) : Strength := o.strength.rightMin o.assoc

end Operator

/-- The operators that stand before their operand. -/
def UnaryOp.table : List (TokenKind × UnaryOp) :=
  [(.bang, .not), (.minus, .neg), (.plus, .plus)]

def UnaryOp.ofKind? (kind : TokenKind) : Option UnaryOp := UnaryOp.table.lookup kind

end Script
