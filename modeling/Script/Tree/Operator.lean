/-!
The operators of expressions, with the text that each is written with.
-/
namespace Script

inductive UnaryOp where
  | not
  | neg
  | plus
deriving DecidableEq, Repr, Inhabited

def UnaryOp.symbol : UnaryOp → String
  | not => "!"
  | neg => "-"
  | plus => "+"

inductive BinaryOp where
  | add
  | sub
  | mul
  | div
deriving DecidableEq, Repr, Inhabited

def BinaryOp.symbol : BinaryOp → String
  | add => "+"
  | sub => "-"
  | mul => "*"
  | div => "/"

inductive CompareOp where
  | eq
  | ne
  | lt
  | le
  | gt
  | ge
deriving DecidableEq, Repr, Inhabited

def CompareOp.symbol : CompareOp → String
  | eq => "=="
  | ne => "!="
  | lt => "<"
  | le => "<="
  | gt => ">"
  | ge => ">="

inductive Assoc where
  | left
  | right
deriving DecidableEq, Repr, Inhabited

end Script
