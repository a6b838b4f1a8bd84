import Script.Source.Span

/-!
Identifiers, dotted names and type references: the leaves of a tree that contain no expression.
-/
namespace Script

structure Ident where
  text : String
  span : Span
deriving DecidableEq, Repr, Inhabited

/-- A name `a.b.c`, or `.a.b` if it is relative. A name that was read has at least one segment. -/
structure Name where
  relative : Bool
  segments : List Ident
  span : Span
deriving DecidableEq, Repr, Inhabited

/-- The written form of a name. -/
def Name.path (n : Name) : String :=
  (if n.relative then "." else "") ++ ".".intercalate (n.segments.map Ident.text)

/-- The built-in types. Their words are ordinary identifiers wherever no type is expected. -/
inductive PrimitiveType where
  | int | uint | i8 | i16 | i32 | i64 | u8 | u16 | u32 | u64
  | float | double | f32 | f64 | bool | str | char | byte | void
deriving DecidableEq, Repr, Inhabited

namespace PrimitiveType

def word : PrimitiveType → String
  | int => "int"
  | uint => "uint"
  | i8 => "i8"
  | i16 => "i16"
  | i32 => "i32"
  | i64 => "i64"
  | u8 => "u8"
  | u16 => "u16"
  | u32 => "u32"
  | u64 => "u64"
  | float => "float"
  | double => "double"
  | f32 => "f32"
  | f64 => "f64"
  | bool => "bool"
  | str => "str"
  | char => "char"
  | byte => "byte"
  | void => "void"

def all : List PrimitiveType :=
  [int, uint, i8, i16, i32, i64, u8, u16, u32, u64, float, double, f32, f64, bool, str, char, byte,
    void]

def ofWord? (s : String) : Option PrimitiveType :=
  all.find? (fun t => t.word == s)

end PrimitiveType

inductive TypeKind where
  | primitive (type : PrimitiveType)
  | named (name : Name)
deriving DecidableEq, Repr, Inhabited

structure TypeRef where
  kind : TypeKind
  span : Span
deriving DecidableEq, Repr, Inhabited

/-- The written form of a type. -/
def TypeRef.path (t : TypeRef) : String :=
  match t.kind with
  | .primitive type => type.word
  | .named name => name.path

end Script
