import Script.Grammar.Program
import Script.Rules.Statement
import Script.Tree.Exprs

/-!
The lists of expressions, which are the items of an array and the arguments of a call, and the texts
that may stand between their items. A list is spelled with a separator of its own between any two
neighbours.
-/
namespace Script

/-- What separates neighbouring items of a list. -/
inductive Separator where
  | comma
  | lineFeed
  | commaLineFeed
deriving DecidableEq, Repr

namespace Separator

def text : Separator → String
  | comma => ","
  | lineFeed => "\n"
  | commaLineFeed => ",\n"

/-- Whether what follows stands on a line of its own. -/
def breaks : Separator → Bool
  | comma => false
  | lineFeed | commaLineFeed => true

/-- The tokens of a separator at a byte position. -/
def tokens (pos : Nat) (newline : Bool) : Separator → List Token
  | comma | commaLineFeed => [⟨.comma, ",", pos, newline⟩]
  | lineFeed => []

end Separator

/-- The text of an expression, and the expression that was read there. -/
structure ListItem where
  text : String
  expr : Expr

inductive ListKind where
  | array
  | arguments
deriving DecidableEq, Repr

namespace ListKind

def opener : ListKind → String
  | array => "["
  | arguments => "f("

def closer : ListKind → String
  | array => "]"
  | arguments => ")"

def close : ListKind → TokenKind
  | array => .closeBracket
  | arguments => .closeParen

/-- The expression that a list is, or of which it is the arguments. -/
def build (items : List Expr) (span : Span) : ListKind → Expr
  | array => ⟨.array items, span⟩
  | arguments => ⟨.call ⟨.name ⟨false, [⟨"f", ⟨0, 1⟩⟩], ⟨0, 1⟩⟩, ⟨0, 1⟩⟩ items none, span⟩

/-- The items of an expression that is such a list. -/
def items : ListKind → ExprKind → List Expr
  | array, .array items => items
  | arguments, .call _ args _ => args
  | _, _ => []

/-- Some text is that of an item of such a list somewhere in a program, and it was read there as the
expression of the item. -/
def HasItem (list : ListKind) (item : ListItem) : Prop :=
  ∃ source p e, Program.parse source = .ok p ∧ e ∈ p.exprs ∧ item.expr ∈ list.items e.kind ∧
    item.text = item.expr.span.text source

/-- The text behind the first item of a list: the other items, each behind its separator, and a last
separator. -/
def spellRest (trailing : Option Separator) : List (Separator × ListItem) → String
  | [] => (trailing.map Separator.text).getD ""
  | (separator, item) :: rest => separator.text ++ (item.text ++ spellRest trailing rest)

def spell (list : ListKind) (first : ListItem) (rest : List (Separator × ListItem))
    (trailing : Option Separator) : String :=
  list.opener ++ (first.text ++ (spellRest trailing rest ++ list.closer))

def written (rules : Rules) : ListKind → Expr → List Token → Prop
  | array => rules.value .item .group
  | arguments => rules.expr .item .group

def ends : ListKind → List Token → Expr → Prop
  | array => Expr.ClosesValue .item .group
  | arguments => Expr.Closes .item .group

end ListKind

end Script
