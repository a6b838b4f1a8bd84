import Script.Command.Run

/-!
The command line: reads the files that the command names, runs it, and prints its report.
-/
namespace Script

/-- The number of a system error, which some calls report negated. -/
def errorNumber (code : UInt32) : UInt32 := if code < 0x80000000 then code else 0 - code

/-- Why the system refuses a file. -/
def ReadFault.ofError (e : IO.Error) : ReadFault :=
  match e with
  | .noFileOrDirectory .. => .noSuchFile
  | .inappropriateType _ code _ => if errorNumber code = 20 then .notDirectory else .isDirectory
  | .invalidArgument _ code _ =>
    if errorNumber code = 36 then .nameTooLong else .other (toString e)
  | e => .other (toString e)

/-- Reads a file, or tells why it cannot be read. -/
def readContent (file : String) : IO FileContent := do
  try
    return FileContent.ofBytes (← IO.FS.readBinFile file)
  catch e => return .unreadable (.ofError e)

end Script

def main (words : List String) : IO UInt32 := do
  let files := match Script.Command.ofWords words with
    | .ok command => command.files
    | .error _ => []
  let contents ← files.mapM fun file => do return (file, ← Script.readContent file)
  let content (file : String) := (contents.lookup file).getD (.unreadable .noSuchFile)
  let report := Script.Command.runWords content words
  (← IO.getStdout).putStr report.output
  (← IO.getStderr).putStr report.errorText
  return report.code.toUInt32
