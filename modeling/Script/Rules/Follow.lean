import Script.Grammar.Statement

/-!
Where the parts of a program end. Nothing marks the end of an expression or of a statement, so it is
the tokens after it that end it: a part ends before some tokens if none of them goes on with it.
Only the right edge of a part matters, since what is in brackets ends with its bracket.
-/
namespace Script

/-- What the inside of brackets tells: a brace is a value, and line breaks end items. -/
abbrev Surroundings.item : Surroundings := ⟨.expectValue, true⟩

/-- What the inside of parentheses tells: a brace is a value, and line breaks end nothing. -/
abbrev Surroundings.grouped : Surroundings := ⟨.expectValue, false⟩

/-- What the pattern of a case is told: a brace is the block of the case. -/
abbrev Surroundings.pattern : Surroundings := ⟨.expectBlock, true⟩

/-- What the head of a construct is told: a brace is the block of the construct. -/
abbrev Surroundings.head (s : Surroundings) : Surroundings := { s with brace := .expectBlock }

/-- Whether tokens begin with one of this kind on the line of the token before. -/
def Continues (kind : TokenKind) (r : List Token) : Prop :=
  ∃ t ∈ r.head?, Parser.continuesWith kind t = true

/-- Whether tokens begin with an `else` that belongs to an `if`. -/
def AtElse (r : List Token) : Prop :=
  ∃ t u us, r = t :: u :: us ∧ t.keyword? = some .elseWord ∧ u.kind ≠ .arrow

/-- Whether the operator `o` goes on with an expression at the token `t`. -/
structure Applies (s : Surroundings) (min : Strength) (t : Token) (o : Operator) : Prop where
  sameLine : (t.newlineBefore && s.breakEnds) = false
  operator : Operator.ofKind? t.kind = some o
  strong : ¬ o.strength < min

/-- No operator goes on with an expression at the front of these tokens. -/
def Stops (s : Surroundings) (min : Strength) (r : List Token) : Prop :=
  ∀ t ∈ r.head?, ∀ o, ¬ Applies s min t o

/-- Tokens before which a name or a type always ends. -/
def Dotless (r : List Token) : Prop := ¬ Continues .dot r

/-- Tokens before which a statement may end: none goes on with a word on its line. -/
structure Apart (r : List Token) : Prop where
  dot : ¬ Continues .dot r
  ident : ¬ Continues .ident r
  brace : ¬ Continues .openBrace r

def BinaryOp.strength : BinaryOp → Strength
  | add | sub => .additive
  | mul | div => .multiplicative

/-- An `if` or a `when` that stands for a value. -/
def Expr.IsControl (e : Expr) : Prop :=
  match e.kind with
  | .ifExpr _ | .whenExpr _ => True
  | _ => False

instance (e : Expr) : Decidable e.IsControl := by
  unfold Expr.IsControl
  split <;> infer_instance

def TypeRef.EndsBefore (r : List Token) (t : TypeRef) : Prop :=
  match t.kind with
  | .primitive _ => True
  | .named _ => Dotless r

/-- A place for a type ends where no type follows, or where its type does. -/
def TypeRef.AnnotationEnds (r : List Token) : Option TypeRef → Prop
  | none => ¬ Continues .ident r
  | some t => t.EndsBefore r

def IfStmt.EndsBefore (r : List Token) (stmt : IfStmt) : Prop :=
  stmt.elseBody.isNone → ¬ AtElse r

/-- The operands at the right edge of an expression end before these tokens. Whether an operator
goes on with the expression itself is for the loop that reads it. -/
def Expr.EndsBefore (s : Surroundings) (r : List Token) : Expr → Prop
  | ⟨.name _, _⟩ => Dotless r
  | ⟨.transition _ _, _⟩ => Dotless r
  | ⟨.unary _ operand, _⟩ => operand.EndsBefore s r ∧ Stops s .unary r
  | ⟨.binary op assoc _ right, _⟩ =>
    right.EndsBefore s r ∧ Stops s (op.strength.rightMin assoc) r
  | ⟨.comparison _ assoc _ right, _⟩ =>
    right.EndsBefore s r ∧ Stops s (Strength.comparison.rightMin assoc) r
  | ⟨.call _ _ none, _⟩ => s.brace = .expectValue → ¬ Continues .openBrace r
  | ⟨.pair _ value, _⟩ => value.EndsBefore s r ∧ (¬ value.IsControl → Stops s .transition r)
  | ⟨.ifExpr stmt, _⟩ => stmt.EndsBefore r
  | _ => True

/-- An expression ends before these tokens, and no operator of at least this strength follows. -/
structure Expr.Closes (s : Surroundings) (min : Strength) (r : List Token) (e : Expr) : Prop where
  ends : e.EndsBefore s r
  stops : Stops s min r

/-- The same for what stands where a value is expected. -/
structure Expr.ClosesValue (s : Surroundings) (min : Strength) (r : List Token) (e : Expr) :
    Prop where
  ends : e.EndsBefore s r
  stops : ¬ e.IsControl → Stops s min r

def UseDecl.EndsBefore (r : List Token) (d : UseDecl) : Prop :=
  Dotless r ∧ if d.subs.isEmpty then ¬ Continues .colon r else ∀ t ∈ r.head?, t.kind ≠ .comma

def FnBody.EndsBefore (s : Surroundings) (r : List Token) : FnBody → Prop
  | .block _ => True
  | .expr e => e.Closes s .group r

/-- An expression that is a statement also ends only where it does not become an assignment, or the
declaration that a soft keyword introduces. -/
structure Expr.EndsStatement (s : Surroundings) (r : List Token) (e : Expr) : Prop where
  closes : e.Closes s .group r
  assign : ∀ t ∈ r.head?, t.kind ≠ .assign
  apart : Apart r

def StatementKind.EndsBefore (s : Surroundings) (r : List Token) : StatementKind → Prop
  | .useDecl d => d.EndsBefore r
  | .importDecl d => d.args.isNone → Dotless r ∧ ¬ Continues .openParen r
  | .varDecl d => d.value.ClosesValue s .group r
  | .fnDecl d => d.body.EndsBefore s r
  | .nodeDecl d => d.body.isNone → ¬ Continues .openBrace r
  | .assign _ value => value.ClosesValue s .group r
  | .ifStmt stmt => stmt.EndsBefore r
  | .expr e => e.EndsStatement s r
  | _ => True

def Statement.EndsBefore (s : Surroundings) (r : List Token) (st : Statement) : Prop :=
  st.kind.EndsBefore s r

/-- An entry of a node is a pair or an `if`. -/
def Statement.EntryEndsBefore (s : Surroundings) (r : List Token) (st : Statement) : Prop :=
  match st.kind with
  | .expr e => e.Closes s .group r
  | .ifStmt stmt => stmt.EndsBefore r
  | _ => True

def Param.EndsBefore (r : List Token) (p : Param) : Prop := TypeRef.AnnotationEnds r p.type

def Property.EndsBefore (r : List Token) (p : Property) : Prop :=
  (p.type.isNone → Dotless r) ∧ TypeRef.AnnotationEnds r p.type

def FieldDecl.EndsBefore (r : List Token) (d : FieldDecl) : Prop := d.type.EndsBefore r

def EnumMember.EndsBefore (s : Surroundings) (r : List Token) (m : EnumMember) : Prop :=
  match m.value with
  | none => ∀ t ∈ r.head?, t.kind ≠ .assign
  | some value => value.Closes s .group r

def CaseBody.EndsBefore (s : Surroundings) (r : List Token) : CaseBody → Prop
  | .block _ => True
  | .arrow st => st.EndsBefore s r

end Script
