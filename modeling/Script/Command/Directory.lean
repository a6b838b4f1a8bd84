/-!
Files by their paths. A path is walked part by part from a working directory, which holds plain
files and no other directory; all that is known of what lies outside are the directories above it.
A path that asks for more of a plain file, even with a slash at its end only, leads nowhere.
-/
namespace Script

/-- Why a file cannot be read. -/
inductive ReadFault where
  | noSuchFile
  | notDirectory
  | isDirectory
  | nameTooLong
  | notText
  | other (reason : String)
deriving DecidableEq, Repr

def ReadFault.message : ReadFault → String
  | noSuchFile => "No such file or directory (os error 2)"
  | notDirectory => "Not a directory (os error 20)"
  | isDirectory => "Is a directory (os error 21)"
  | nameTooLong => "File name too long (os error 36)"
  | notText => "stream did not contain valid UTF-8"
  | other reason => reason

/-- What is known of a file: its text, or why it could not be read. -/
inductive FileContent where
  | text (s : String)
  | unreadable (fault : ReadFault)
deriving DecidableEq, Repr

def FileContent.ofBytes (bytes : ByteArray) : FileContent :=
  match String.fromUTF8? bytes with
  | some s => text s
  | none => unreadable .notText

/-- A working directory, by the names and contents of its files. -/
structure Directory where
  files : List (String × FileContent)
deriving DecidableEq, Repr

namespace Directory

/-- Where a path leads: to the working directory, to one above it, or to a file. -/
inductive Place where
  | working
  | above
  | file (content : FileContent)
deriving DecidableEq, Repr

/-- Goes one part of a path further. A name has at most 255 bytes. -/
def step (d : Directory) (place : Place) (name : String) : Except ReadFault Place :=
  match place with
  | .file _ => .error .notDirectory
  | place =>
    if name = "" ∨ name = "." then .ok place
    else if name = ".." then .ok .above
    else if 255 < name.utf8ByteSize then .error .nameTooLong
    else match place, d.files.lookup name with
      | .working, some content => .ok (.file content)
      | _, _ => .error .noSuchFile

/-- Walks a path, which starts at the root if it begins with a slash. -/
def walk (d : Directory) (path : String) : Except ReadFault Place :=
  match (path.toList.splitOn '/').map String.ofList with
  | [""] => .error .noSuchFile
  | "" :: names => names.foldlM d.step .above
  | names => names.foldlM d.step .working

/-- What reading the file of a path gives. A path has less than 4096 bytes. -/
def read (d : Directory) (path : String) : FileContent :=
  if 4096 ≤ path.utf8ByteSize then .unreadable .nameTooLong
  else match d.walk path with
    | .ok (.file content) => content
    | .ok _ => .unreadable .isDirectory
    | .error fault => .unreadable fault

end Directory

end Script
