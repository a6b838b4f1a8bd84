import Script.Grammar.Names
import Script.Grammar.Nested
import Script.Token.Pieces

/-!
Reading expressions by binding strength. An operand is read first; then, as long as the token at the
cursor is an operator that binds strongly enough and no line break ends the expression before it,
the operand becomes the left side of that operator.
-/
namespace Script.Parser

/-- A block `{ … }` of statements. -/
def block (nested : Nested) : Parser Block := do
  let start ← position
  let statements ← bracketed .openBrace [.semicolon] .closeBrace nested.statement
  return ⟨statements, ← spanFrom start⟩

/-- The arguments of a call with their parentheses. -/
def arguments (nested : Nested) : Parser (List Expr) :=
  bracketed .openParen [.comma] .closeParen (nested.expr .group)

/-- Reads the text of a hole as a text of its own, up to its end. -/
def inHole {α : Type} (hole : RawHole) (p : Parser α) : Except ParseError α :=
  let lexed := Lexed.ofString hole.start hole.text
  match lexed.last with
  | .error e => .error e.toParseError
  | .ok last =>
    let whole : Parser α := do
      let a ← p
      let _ ← token .endOfText
      return a
    match whole ⟨.expectValue, true⟩ (Cursor.start lexed.tokens last) with
    | .ok a _ => .ok a
    | .error e _ => .error e

def hole (nested : Nested) (h : RawHole) : Except ParseError StringPart :=
  match h.kind with
  | .name => .nameHole <$> inHole h name
  | .expr => .exprHole <$> inHole h (within .expectValue false (nested.value .group))

def part (nested : Nested) : Piece → Except ParseError StringPart
  | .text s => .ok (.text s)
  | .hole h => hole nested h

/-- The literal that a string token stands for. -/
def literalOf (nested : Nested) (t : Token) : Except ParseError StringLiteral :=
  match decode t.text t.start with
  | .error e => .error e.inLiteral
  | .ok decoded =>
    match decoded.pieces.mapM (part nested) with
    | .error e => .error e
    | .ok parts => .ok ⟨decoded.form, parts, t.span⟩

def stringLiteral (nested : Nested) : Parser StringLiteral := do
  let t ← advance
  match literalOf nested t with
  | .ok literal => return literal
  | .error e => fail e.fault e.span

/-- The literal that a keyword stands for. -/
def literalWord? : Keyword → Option Literal
  | .trueWord => some (.bool true)
  | .falseWord => some (.bool false)
  | .nullWord => some .null
  | .nilWord => some .nil
  | _ => none

def named : Parser Expr := do
  let n ← name
  return ⟨.name n, n.span⟩

/-- An operand that begins with a word: a literal, or a name that no hard keyword begins. -/
def wordOperand (t : Token) : Parser Expr :=
  match t.keyword? with
  | none => named
  | some word =>
    match literalWord? word with
    | some literal => do
      let _ ← advance
      return ⟨.literal literal, t.span⟩
    | none => if word.isSoft then named else unexpected .expression

def group (nested : Nested) : Parser Expr := do
  let start ← position
  let _ ← token .openParen
  let inner ← within .expectValue false (nested.expr .group)
  let _ ← token .closeParen
  return ⟨.group inner, ← spanFrom start⟩

def array (nested : Nested) : Parser Expr := do
  let start ← position
  let items ← bracketed .openBracket [.comma] .closeBracket (nested.value .group)
  return ⟨.array items, ← spanFrom start⟩

/-- An object, whose entries are statements. -/
def object (nested : Nested) : Parser Expr := do
  let start ← position
  let entries ← bracketed .openBrace [.comma] .closeBrace nested.statement
  return ⟨.object entries, ← spanFrom start⟩

def unary (nested : Nested) (op : UnaryOp) : Parser Expr := do
  let t ← advance
  let operand ← nested.expr .unary
  return ⟨.unary op operand, t.span.cover operand.span⟩

def operand (nested : Nested) : Parser Expr := do
  let t ← here
  match UnaryOp.ofKind? t.kind with
  | some op => unary nested op
  | none =>
    match t.kind with
    | .ident => wordOperand t
    | .dot => named
    | .number kind => do
      let _ ← advance
      return ⟨.literal (.number kind t.text), t.span⟩
    | .plainString | .rawString | .formattedString => do
      let literal ← stringLiteral nested
      return ⟨.literal (.string literal), t.span⟩
    | .openParen => group nested
    | .openBracket => array nested
    | .openBrace => do
      if (← surroundings).brace.role .operand = .object then object nested
      else fail .ambiguousBrace t.span
    | _ => unexpected .expression

/-- What an expression is as the key of a pair, if it can be one. -/
def pairKey? (e : Expr) : Option PairKey :=
  match e.kind with
  | .name n => some (.name n)
  | .literal (.string literal) =>
    if literal.form = .multiline then none else some (.string literal)
  | _ => none

/-- The value of a pair may be a transition, though a transition binds less strongly. -/
def pair (nested : Nested) (left : Expr) : Parser Expr := do
  match pairKey? left with
  | none => fail .invalidPairKey left.span
  | some key =>
    let _ ← advance
    let value ← nested.value .transition
    return ⟨.pair key value, left.span.cover value.span⟩

def transition (left : Expr) : Parser Expr := do
  match left.kind with
  | .name source =>
    let _ ← advance
    if ← isAtAny [.ident, .dot] then
      let target ← name
      return ⟨.transition source target, left.span.cover target.span⟩
    else fail .invalidTransition (← here).span
  | _ => fail .invalidTransition left.span

/-- The block after the arguments of a call, if it belongs to the call. -/
def trailingBlock (nested : Nested) : Parser (Option Block) := do
  let t ← here
  let role := (← surroundings).brace.role (.afterCall (!t.newlineBefore))
  if t.kind = .openBrace ∧ role = .trailingBlock then return some (← block nested)
  else return none

def call (nested : Nested) (callee : Expr) : Parser Expr := do
  let args ← arguments nested
  let body ← trailingBlock nested
  return ⟨.call callee args body, ← spanFrom callee.span.start⟩

/-- The expression that an operator builds of its left side and of what follows. -/
def extend (nested : Nested) (left : Expr) (o : Operator) : Parser Expr :=
  match o.op with
  | .binary op => do
    let _ ← advance
    let right ← nested.expr o.rightMin
    return ⟨.binary op o.assoc left right, left.span.cover right.span⟩
  | .compare op => do
    let _ ← advance
    let right ← nested.expr o.rightMin
    return ⟨.comparison op o.assoc left right, left.span.cover right.span⟩
  | .pair => pair nested left
  | .transition => transition left
  | .call => call nested left

/-- One more operator after `left`, if the one at the cursor binds at least as strongly as `min` and
the expression does not end at a line break before it. -/
def climb (nested : Nested) (min : Strength) (left : Expr) : Parser (Option Expr) := do
  let t ← here
  if t.newlineBefore && (← surroundings).breakEnds then return none
  match Operator.ofKind? t.kind with
  | none => return none
  | some o => if o.strength < min then return none else return some (← extend nested left o)

/-- An expression whose operators bind at least as strongly as `min`. -/
def expr (nested : Nested) (min : Strength) : Parser Expr := do
  let first ← operand nested
  iterate (climb nested min) first

end Script.Parser
