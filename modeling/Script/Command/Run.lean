import Script.Command.Basic
import Script.Command.Directory
import Script.Command.Listing
import Script.Grammar.Program
import Script.Json.Write
import Script.Tree.Layout

/-!
Running a command: from the contents of its files to what it prints and how it ends. Nothing here
reads a file; a command is given every file that it names, or the reason why there is none.
-/
namespace Script

/-- A line, or a few, on the error stream. -/
inductive Notice where
  | unreadable (file : String) (fault : ReadFault)
  | rejected (file : String) (category : ErrorCategory)
  | diagnosis (file : String) (error : ParseError)
  | misuse
deriving DecidableEq, Repr

def ErrorCategory.text : ErrorCategory → String
  | lexical => "lexical error"
  | syntactic => "syntax error"
  | ambiguity => "ambiguous brace"

namespace Notice

def usage : String :=
  "usage: auto parse [--pretty] FILE | auto tokens FILE | auto check FILE... | auto fmt FILE"

def text : Notice → String
  | unreadable file fault => "Error reading " ++ file ++ ": " ++ fault.message
  | rejected file category => "✗ " ++ file ++ " - " ++ category.text
  | diagnosis file error =>
    "error: " ++ error.fault.message ++ "\n  at " ++ file ++ ", bytes " ++
      toString error.span.start ++ " to " ++ toString error.span.stop
  | misuse => usage

end Notice

/-- What a command prints on its two streams, and its exit code. -/
structure Report where
  output : String
  notices : List Notice
  code : Nat
deriving DecidableEq, Repr

namespace Report

def success (output : String) : Report := ⟨output, [], 0⟩

def failure (output : String) (notices : List Notice) : Report := ⟨output, notices, 1⟩

/-- The lines of the error stream. -/
def errorText (r : Report) : String :=
  String.join (r.notices.map fun n => n.text ++ "\n")

/-- One report after another; the whole fails if a part does. -/
def append (a b : Report) : Report :=
  ⟨a.output ++ b.output, a.notices ++ b.notices, max a.code b.code⟩

end Report

namespace Command

/-- Runs `f` on the text of a file, or reports why there is none. -/
def onText (file : String) (content : FileContent) (f : String → Report) : Report :=
  match content with
  | .text s => f s
  | .unreadable fault => .failure "" [.unreadable file fault]

/-- Runs `f` on the program of a file, or reports why it is none. -/
def onProgram (file : String) (content : FileContent) (f : Program → Report) : Report :=
  onText file content fun s =>
    match Program.parse s with
    | .ok p => f p
    | .error e => .failure "" [.diagnosis file e]

def runParse (file : String) (pretty : Bool) (content : FileContent) : Report :=
  onProgram file content fun p =>
    .success ((if pretty then p.toJson.pretty 0 else p.toJson.compact) ++ "\n")

def runFormat (file : String) (content : FileContent) : Report :=
  onProgram file content fun p => .success (p.print 0 ++ "\n")

def runTokens (file : String) (content : FileContent) : Report :=
  onText file content fun s =>
    let lexed := Lexed.ofString 0 s
    let output := String.join ((Listing.lines lexed).map (· ++ "\n"))
    match lexed.last with
    | .ok _ => .success output
    | .error e => .failure output [.diagnosis file e.toParseError]

def checkFile (file : String) (content : FileContent) : Report :=
  onText file content fun s =>
    match Program.parse s with
    | .ok p =>
      .success ("✓ " ++ file ++ " - " ++ toString p.statements.length ++ " statements\n")
    | .error e => .failure "" [.rejected file e.fault.category, .diagnosis file e]

/-- Runs a command on the contents of its files. -/
def run (content : String → FileContent) : Command → Report
  | parse file pretty => runParse file pretty (content file)
  | tokens file => runTokens file (content file)
  | format file => runFormat file (content file)
  | check files =>
    files.foldr (fun file rest => (checkFile file (content file)).append rest) (.success "")

/-- Runs the command that the words make. The usage is shown if they make none, which is a success
if they ask for it and ends with code 2 if they do not fit. -/
def runWords (content : String → FileContent) (words : List String) : Report :=
  match ofWords words with
  | .ok command => command.run content
  | .error .help => .success (Notice.usage ++ "\n")
  | .error .misuse => ⟨"", [.misuse], 2⟩

end Command

end Script
