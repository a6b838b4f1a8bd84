import Script.Token.Basic

/-!
Keywords. They are written like identifiers, and the soft ones stay usable as names wherever their
statement cannot begin.
-/
namespace Script

inductive Keyword where
  | modWord | useWord | importWord | varWord | letWord | fnWord | nodeWord
  | ifWord | elseWord | forWord | inWord | whenWord | isWord
  | uiWord | styleWord | typeWord | enumWord | breakWord
  | trueWord | falseWord | nullWord | nilWord
deriving DecidableEq, Repr, Inhabited

namespace Keyword

def text : Keyword → String
  | modWord => "mod"
  | useWord => "use"
  | importWord => "import"
  | varWord => "var"
  | letWord => "let"
  | fnWord => "fn"
  | nodeWord => "node"
  | ifWord => "if"
  | elseWord => "else"
  | forWord => "for"
  | inWord => "in"
  | whenWord => "when"
  | isWord => "is"
  | uiWord => "ui"
  | styleWord => "style"
  | typeWord => "type"
  | enumWord => "enum"
  | breakWord => "break"
  | trueWord => "true"
  | falseWord => "false"
  | nullWord => "null"
  | nilWord => "nil"

def all : List Keyword :=
  [modWord, useWord, importWord, varWord, letWord, fnWord, nodeWord, ifWord, elseWord, forWord,
    inWord, whenWord, isWord, uiWord, styleWord, typeWord, enumWord, breakWord, trueWord,
    falseWord, nullWord, nilWord]

def ofText? (s : String) : Option Keyword :=
  all.find? (fun k => k.text == s)

/-- A soft keyword acts as one only when the shape that it introduces follows. -/
def isSoft : Keyword → Bool
  | modWord | useWord | importWord | nodeWord | uiWord | styleWord | typeWord | enumWord => true
  | _ => false

theorem ofText?_text (k : Keyword) : ofText? k.text = some k := by
  cases k <;> decide

end Keyword

/-- The keyword that a token spells, if it is an identifier that spells one. -/
def Token.keyword? (t : Token) : Option Keyword :=
  if t.kind = .ident then Keyword.ofText? t.text else none

end Script
