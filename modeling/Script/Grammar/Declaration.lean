import Script.Grammar.Control

/-!
Reading declarations: `use`, `import`, functions, nodes, types and enumerations.
-/
namespace Script.Parser

/-- A colon on the line of a `use` begins the list of what is used. -/
def useSubs : Parser (List Name) := do
  if continuesWith .colon (← here) then
    let _ ← advance
    let first ← name
    let others ← collect do
      if ← skip .comma then return some (← name) else return none
    return first :: others
  else return []

def useDecl : Parser UseDecl := do
  let start ← position
  let _ ← keyword .useWord
  let path ← name
  let subs ← useSubs
  return ⟨path, subs, ← spanFrom start⟩

/-- The arguments of an import, which stand on its line. -/
def importArgs (nested : Nested) : Parser (Option (List Expr)) := do
  if continuesWith .openParen (← here) then return some (← arguments nested) else return none

def importDecl (nested : Nested) : Parser ImportDecl := do
  let start ← position
  let _ ← keyword .importWord
  let path ← name
  let args ← importArgs nested
  return ⟨path, args, ← spanFrom start⟩

def param : Parser Param := do
  let start ← position
  let name ← ident
  let type ← annotation
  return ⟨name, type, ← spanFrom start⟩

def fnBody (nested : Nested) : Parser FnBody := do
  if ← skip .assign then return .expr (← nested.expr .group)
  else return .block (← block nested)

def fnDecl (nested : Nested) : Parser FnDecl := do
  let start ← position
  let _ ← keyword .fnWord
  let name ← name
  let params ← bracketed .openParen [.comma] .closeParen param
  let result ← annotation
  let body ← fnBody nested
  return ⟨name, params, result, body, ← spanFrom start⟩

def property : Parser Property := do
  let start ← position
  let name ← name
  let type ← annotation
  return ⟨name, type, ← spanFrom start⟩

def isPair (e : Expr) : Bool :=
  match e.kind with
  | .pair _ _ => true
  | _ => false

/-- An entry of a node: a pair or an `if`. -/
def nodeEntry (nested : Nested) : Parser Statement := do
  let start ← position
  if ← isAtKeyword .ifWord then
    let stmt ← ifStmt nested
    return ⟨.ifStmt stmt, ← spanFrom start⟩
  else
    let e ← nested.expr .group
    if isPair e then return ⟨.expr e, e.span⟩ else fail .invalidNodeEntry e.span

/-- The entries of a node, whose brace stands on the line of its head. -/
def nodeBody (nested : Nested) : Parser (Option (List Statement)) := do
  if continuesWith .openBrace (← here) then
    return some (← bracketed .openBrace [.comma] .closeBrace (nodeEntry nested))
  else return none

def nodeDecl (nested : Nested) : Parser NodeDecl := do
  let start ← position
  let _ ← keyword .nodeWord
  let name ← name
  let props ← bracketed .openParen [.comma] .closeParen property
  let body ← nodeBody nested
  return ⟨name, props, body, ← spanFrom start⟩

def fieldDecl : Parser FieldDecl := do
  let start ← position
  let name ← ident
  let _ ← token .colon
  let type ← typeRef
  return ⟨name, type, ← spanFrom start⟩

def typeDecl : Parser TypeDecl := do
  let start ← position
  let _ ← keyword .typeWord
  let name ← ident
  let fields ← bracketed .openBrace [.comma, .semicolon] .closeBrace fieldDecl
  return ⟨name, fields, ← spanFrom start⟩

def enumMember (nested : Nested) : Parser EnumMember := do
  let start ← position
  let name ← ident
  if ← skip .assign then
    let value ← nested.expr .group
    return ⟨name, some value, ← spanFrom start⟩
  else return ⟨name, none, ← spanFrom start⟩

def enumDecl (nested : Nested) : Parser EnumDecl := do
  let start ← position
  let _ ← keyword .enumWord
  let name ← ident
  let members ← bracketed .openBrace [.comma, .semicolon] .closeBrace (enumMember nested)
  return ⟨name, members, ← spanFrom start⟩

end Script.Parser
