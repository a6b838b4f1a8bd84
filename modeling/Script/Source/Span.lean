import Script.Source.Chars

/-!
Byte ranges of a source text. Every token and every node of a tree carries one; it serves messages
and tools, and no reading decision depends on it.
-/
namespace Script

/-- The bytes from `start` up to, but not including, `stop`. -/
structure Span where
  start : Nat
  stop : Nat
deriving DecidableEq, Repr, Inhabited

namespace Span

/-- The empty span at a position. -/
def point (offset : Nat) : Span := ⟨offset, offset⟩

/-- The smallest span that covers both. -/
def cover (a b : Span) : Span :=
  ⟨min a.start b.start, max a.stop b.stop⟩

def shift (k : Nat) (s : Span) : Span :=
  ⟨s.start + k, s.stop + k⟩

/-- The part of a source that a span covers. -/
def text (s : Span) (source : String) : String :=
  String.ofList (Chars.slice s.start s.stop source.toList)

end Span

end Script
