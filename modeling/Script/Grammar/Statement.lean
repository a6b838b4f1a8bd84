import Script.Grammar.Declaration

/-!
Reading statements. The word at the cursor decides which statement follows; a soft keyword counts
only when the next token on its line has the shape that its statement needs.
-/
namespace Script.Parser

/-- The keyword that introduces the statement at the cursor, if one does. -/
def statementWord? : Parser (Option Keyword) := do
  match ← keyword? with
  | none => return none
  | some word =>
    match word with
    | .varWord | .letWord | .fnWord | .ifWord | .forWord | .whenWord | .breakWord =>
      return some word
    | .modWord | .useWord | .importWord | .nodeWord | .typeWord | .enumWord =>
      return if ← nextHas (continuesWith .ident) then some word else none
    | .uiWord | .styleWord =>
      return if ← nextHas (continuesWith .openBrace) then some word else none
    | _ => return none

/-- An expression, or an assignment where `=` follows a name. -/
def exprStatement (nested : Nested) : Parser StatementKind := do
  let e ← expr nested .group
  if ← isAt .assign then
    match e.kind with
    | .name target =>
      let _ ← advance
      return .assign target (← nested.value .group)
    | _ => fail .invalidAssignTarget e.span
  else return .expr e

def modDecl (nested : Nested) : Parser StatementKind := do
  let _ ← advance
  let name ← name
  return .modDecl name (← block nested)

def statementKind (nested : Nested) : Parser StatementKind := do
  match ← statementWord? with
  | some .modWord => modDecl nested
  | some .useWord => return .useDecl (← useDecl)
  | some .importWord => return .importDecl (← importDecl nested)
  | some .varWord | some .letWord => return .varDecl (← varDecl nested)
  | some .fnWord => return .fnDecl (← fnDecl nested)
  | some .nodeWord => return .nodeDecl (← nodeDecl nested)
  | some .ifWord => return .ifStmt (← ifStmt nested)
  | some .forWord => return .forStmt (← forStmt nested)
  | some .whenWord => return .whenStmt (← whenStmt nested)
  | some .uiWord =>
    let _ ← advance
    return .uiBlock (← block nested)
  | some .styleWord =>
    let _ ← advance
    return .styleBlock (← block nested)
  | some .typeWord => return .typeDecl (← typeDecl)
  | some .enumWord => return .enumDecl (← enumDecl nested)
  | some .breakWord =>
    let _ ← advance
    return .breakStmt
  | _ => exprStatement nested

def statement (nested : Nested) : Parser Statement := do
  let start ← position
  let kind ← statementKind nested
  return ⟨kind, ← spanFrom start⟩

end Script.Parser
