import Script.Grammar.Expression

/-!
Reading `if`, `for` and `when`, which are statements and, `for` apart, also values. Their heads are
read where a brace opens the block of the construct.
-/
namespace Script.Parser

/-- The condition of a construct, up to the brace of its block. -/
def condition (nested : Nested) : Parser Expr := inHead (nested.expr .group)

/-- Whether the `else` at the cursor belongs to an `if`. One that an arrow follows closes a `when`.
-/
def isAtElse : Parser Bool := do
  if ← isAtKeyword .elseWord then nextHas (·.kind != .arrow) else return false

/-- One `else if` clause, if one follows. -/
def elseIf (nested : Nested) : Parser (Option ElseIf) := do
  if (← isAtElse) && (← nextHas (·.keyword? == some .ifWord)) then
    let start ← position
    let _ ← advance
    let _ ← advance
    let condition ← condition nested
    let body ← block nested
    return some ⟨condition, body, ← spanFrom start⟩
  else return none

/-- The closing `else` block of an `if`, if one follows. -/
def elseBlock (nested : Nested) : Parser (Option Block) := do
  if ← isAtElse then
    let _ ← advance
    return some (← block nested)
  else return none

def ifStmt (nested : Nested) : Parser IfStmt := do
  let start ← position
  let _ ← keyword .ifWord
  let condition ← condition nested
  let body ← block nested
  let elseIfs ← collect (elseIf nested)
  let elseBody ← elseBlock nested
  return ⟨condition, body, elseIfs, elseBody, ← spanFrom start⟩

/-- The binding word at the cursor. -/
def bindingKind : Parser BindingKind := do
  match ← keyword? with
  | some .varWord =>
    let _ ← advance
    return .varBinding
  | some .letWord =>
    let _ ← advance
    return .letBinding
  | _ => unexpected .binding

/-- A binding `var x = 1` or `let name str = "a"`. -/
def varDecl (nested : Nested) : Parser VarDecl := do
  let start ← position
  let binding ← bindingKind
  let name ← ident
  let type ← annotation
  let _ ← token .assign
  let value ← nested.value .group
  return ⟨binding, name, type, value, ← spanFrom start⟩

def isBindingWord (word : Option Keyword) : Bool :=
  word == some .varWord || word == some .letWord

/-- The bindings that head a counted `for` or a `when`, each with its semicolon. -/
def initDecls (nested : Nested) : Parser (List VarDecl) :=
  collect do
    if isBindingWord (← keyword?) then
      let decl ← inHead (varDecl nested)
      let _ ← token .semicolon
      return some decl
    else return none

/-- Whether the head at the cursor is `i in` or `i, x in`. -/
def isAtIterHead : Parser Bool := do
  let t ← here
  if t.kind == .ident && !isBindingWord t.keyword? then
    nextHas fun next => next.kind == .comma || next.keyword? == some .inWord
  else return false

def iterHead (nested : Nested) : Parser ForHead := do
  let first ← ident
  let names ← do
    if ← skip .comma then
      let second ← ident
      pure (some first, second)
    else pure (none, first)
  let _ ← keyword .inWord
  let iterable ← inHead (nested.value .group)
  return .iterate names.1 names.2 iterable

def countedHead (nested : Nested) : Parser ForHead := do
  let init ← initDecls nested
  if ← isAt .openBrace then return .counted init none
  else return .counted init (some (← condition nested))

def forStmt (nested : Nested) : Parser ForStmt := do
  let start ← position
  let _ ← keyword .forWord
  let head ← if ← isAtIterHead then iterHead nested else countedHead nested
  let body ← block nested
  return ⟨head, body, ← spanFrom start⟩

def caseBody (nested : Nested) : Parser CaseBody := do
  if ← isAt .arrow then
    let _ ← advance
    return .arrow (← nested.statement)
  else if ← isAt .openBrace then return .block (← block nested)
  else unexpected .caseBody

/-- One case of a `when`. A pattern stops below transitions, so that its arrow stays the case's own.
-/
def whenCase (nested : Nested) : Parser WhenCase := do
  let start ← position
  let _ ← keyword .isWord
  let pattern ← within .expectBlock true (nested.expr .pair)
  let body ← caseBody nested
  return ⟨pattern, body, ← spanFrom start⟩

def whenCases (nested : Nested) : Parser (List WhenCase) :=
  collect do
    if (← isAt .closeBrace) || (← isAtKeyword .elseWord) then return none
    let c ← whenCase nested
    if ← skip .semicolon then return some c
    else if ← isAt .closeBrace then return some c
    else if ← isAtLineStart then return some c
    else unexpected (.itemEnd [.semicolon] .closeBrace)

/-- The `else` case of a `when`, which is its last. -/
def elseCase (nested : Nested) : Parser (Option CaseBody) := do
  if ← isAtKeyword .elseWord then
    let _ ← advance
    let body ← caseBody nested
    let _ ← skip .semicolon
    if ← isAt .closeBrace then return some body else unexpected (.token .closeBrace)
  else return none

def whenStmt (nested : Nested) : Parser WhenStmt := do
  let start ← position
  let _ ← keyword .whenWord
  let init ← initDecls nested
  let subject ← condition nested
  let _ ← token .openBrace
  let cases ← within .expectValue true (whenCases nested)
  let elseBody ← within .expectValue true (elseCase nested)
  let _ ← token .closeBrace
  return ⟨init, subject, cases, elseBody, ← spanFrom start⟩

/-- What stands where a value is expected. -/
def value (nested : Nested) (min : Strength) : Parser Expr := do
  let start ← position
  match ← keyword? with
  | some .ifWord =>
    let stmt ← ifStmt nested
    return ⟨.ifExpr stmt, ← spanFrom start⟩
  | some .whenWord =>
    let stmt ← whenStmt nested
    return ⟨.whenExpr stmt, ← spanFrom start⟩
  | _ => expr nested min

end Script.Parser
