/-!
JSON values, with the fields of an object in order, and their two written forms: the compact one has
no blanks at all, the pretty one a line for each item and two spaces for each level.
-/
namespace Script

inductive Json where
  | null
  | bool (value : Bool)
  | natural (value : Nat)
  /-- Any number that is not written as a natural one, by its text. -/
  | numeral (text : String)
  | string (value : String)
  | array (items : List Json)
  | object (fields : List (String × Json))
deriving Inhabited

namespace Json

def hexDigit (n : Nat) : Char :=
  if n < 10 then Char.ofNat ('0'.toNat + n) else Char.ofNat ('a'.toNat + (n - 10))

/-- How a string in quotes writes one character: control characters, quotes and backslashes are
escaped, all others stand for themselves. -/
def escapeChar (c : Char) : List Char :=
  if c = '"' then ['\\', '"']
  else if c = '\\' then ['\\', '\\']
  else if c = '\n' then ['\\', 'n']
  else if c = '\r' then ['\\', 'r']
  else if c = '\t' then ['\\', 't']
  else if c = '\x08' then ['\\', 'b']
  else if c = '\x0c' then ['\\', 'f']
  else if c.toNat < 32 then ['\\', 'u', '0', '0', hexDigit (c.toNat / 16), hexDigit (c.toNat % 16)]
  else [c]

def quote (s : String) : String :=
  "\"" ++ String.ofList (s.toList.flatMap escapeChar) ++ "\""

mutual

def compact : Json → String
  | null => "null"
  | bool true => "true"
  | bool false => "false"
  | natural n => toString n
  | numeral text => text
  | string s => quote s
  | array items => "[" ++ ",".intercalate (compactItems items) ++ "]"
  | object fields => "\x7b" ++ ",".intercalate (compactFields fields) ++ "\x7d"

def compactItems : List Json → List String
  | [] => []
  | j :: js => j.compact :: compactItems js

def compactFields : List (String × Json) → List String
  | [] => []
  | (key, j) :: fields => (quote key ++ ":" ++ j.compact) :: compactFields fields

end

/-- Items on lines of their own, between the two delimiters. -/
def lines (indent : Nat) (opener closer : String) (items : List String) : String :=
  if items.isEmpty then opener ++ closer
  else
    let margin (level : Nat) := String.ofList (List.replicate (2 * level) ' ')
    opener ++ "\n" ++ ",\n".intercalate (items.map (margin (indent + 1) ++ ·)) ++ "\n" ++
      margin indent ++ closer

mutual

def pretty (indent : Nat) : Json → String
  | array items => lines indent "[" "]" (prettyItems (indent + 1) items)
  | object fields => lines indent "\x7b" "\x7d" (prettyFields (indent + 1) fields)
  | j => j.compact

def prettyItems (indent : Nat) : List Json → List String
  | [] => []
  | j :: js => j.pretty indent :: prettyItems indent js

def prettyFields (indent : Nat) : List (String × Json) → List String
  | [] => []
  | (key, j) :: fields => (quote key ++ ": " ++ j.pretty indent) :: prettyFields indent fields

end

end Json

end Script
