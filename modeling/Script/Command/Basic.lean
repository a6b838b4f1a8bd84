/-!
Commands and how they are given as words. The words after the name of a command are read from left
to right, each against what the command takes, and the first that asks for help or does not fit ends
the reading. A file name is any word that does not begin with a dash, the dash alone, or any word at
all after two dashes alone.
-/
namespace Script

inductive Command where
  | parse (file : String) (pretty : Bool)
  | tokens (file : String)
  | check (files : List String)
  | format (file : String)
deriving DecidableEq, Repr

/-- Why words make no command: one asks for help, or one does not fit. -/
inductive NoCommand where
  | help
  | misuse
deriving DecidableEq, Repr

inductive CommandName where
  | parse | tokens | check | format
deriving DecidableEq, Repr

namespace CommandName

def all : List CommandName := [parse, tokens, check, format]

def word : CommandName → String
  | parse => "parse"
  | tokens => "tokens"
  | check => "check"
  | format => "fmt"

def ofWord? (w : String) : Option CommandName := all.find? (·.word == w)

/-- Whether the command takes any number of files and not just one. -/
def takesMany : CommandName → Bool
  | check => true
  | _ => false

/-- Whether the command has the switch for pretty output. -/
def takesPretty : CommandName → Bool
  | parse => true
  | _ => false

end CommandName

/-- The words after the name of a command, sorted. -/
structure Arguments where
  files : List String
  pretty : Bool
deriving DecidableEq, Repr

namespace Arguments

def empty : Arguments := ⟨[], false⟩

/-- Adds a file, which has a name and comes alone unless the command takes many. -/
def addFile (name : CommandName) (a : Arguments) (file : String) : Except NoCommand Arguments :=
  if file = "" ∨ (a.files ≠ [] ∧ !name.takesMany) then .error .misuse
  else .ok { a with files := a.files ++ [file] }

/-- Adds a switch by its letter. The one for pretty output may be given once. -/
def addSwitch (name : CommandName) (a : Arguments) (letter : Char) : Except NoCommand Arguments :=
  if letter = 'h' then .error .help
  else if letter = 'p' ∧ name.takesPretty ∧ !a.pretty then .ok { a with pretty := true }
  else .error .misuse

/-- Adds a word: a switch, several switches that stand together behind one dash, or a file. -/
def addWord (name : CommandName) (a : Arguments) (word : String) : Except NoCommand Arguments :=
  if word = "--help" then a.addSwitch name 'h'
  else if word = "--pretty" then a.addSwitch name 'p'
  else match word.toList with
    | '-' :: letter :: letters => (letter :: letters).foldlM (addSwitch name) a
    | _ => a.addFile name word

/-- Adds words. After two dashes alone all are files. -/
def addWords (name : CommandName) : Arguments → List String → Except NoCommand Arguments
  | a, [] => .ok a
  | a, "--" :: words => words.foldlM (addFile name) a
  | a, word :: words => do addWords name (← a.addWord name word) words

end Arguments

namespace Command

/-- The command of a name with its arguments. -/
def ofArguments : CommandName → Arguments → Except NoCommand Command
  | .parse, ⟨[file], pretty⟩ => .ok (.parse file pretty)
  | .tokens, ⟨[file], _⟩ => .ok (.tokens file)
  | .format, ⟨[file], _⟩ => .ok (.format file)
  | .check, ⟨files, _⟩ => .ok (.check files)
  | _, _ => .error .misuse

/-- Whether words that begin with no command ask for help: by a switch, or by a word that at most
the name of what the help is about follows. -/
def askForHelp : List String → Bool
  | ["help"] => true
  | ["help", topic] => topic == "help" || (CommandName.ofWord? topic).isSome
  | "--help" :: _ => true
  | word :: _ =>
    match word.toList with
    | '-' :: 'h' :: _ => true
    | _ => false
  | [] => false

/-- A command from its words, if they make one. -/
def ofWords (words : List String) : Except NoCommand Command :=
  match words.head?.bind CommandName.ofWord? with
  | some name => do ofArguments name (← Arguments.empty.addWords name words.tail)
  | none => .error (if askForHelp words then .help else .misuse)

/-- The files that a command reads. -/
def files : Command → List String
  | parse file _ => [file]
  | tokens file => [file]
  | check files => files
  | format file => [file]

end Command

end Script
