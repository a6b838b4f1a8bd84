import Script.Rules.Follow

/-!
How names, types and lists are written. A rule relates a part of a tree, its spans included, to the
tokens from its first to its last.
-/
namespace Script

/-- The span from a start to the last of some tokens. -/
def Token.spanFrom (start : Nat) (ts : List Token) : Span :=
  ⟨start, max ((ts.getLast?.map Token.stop).getD start) start⟩

/-- The span from the first to the last of some tokens. -/
def Token.spanOf : List Token → Span
  | [] => default
  | t :: ts => spanFrom t.start (t :: ts)

structure Ident.Written (i : Ident) (t : Token) : Prop where
  kind : t.kind = .ident
  eq : i = ⟨t.text, t.span⟩

/-- Segments after the first one, each with the point before it, on one line. -/
inductive Ident.MoreWritten : List Ident → List Token → Prop
  | nil : MoreWritten [] []
  | cons {d t : Token} {i : Ident} {is : List Ident} {ts : List Token}
      (hd : Parser.continuesWith .dot d = true) (ht : Parser.continuesWith .ident t = true)
      (hi : i.Written t) (his : MoreWritten is ts) : MoreWritten (i :: is) (d :: t :: ts)

inductive Name.Written : Name → List Token → Prop
  | absolute {t : Token} {i : Ident} {is : List Ident} {ts : List Token}
      (hi : i.Written t) (his : Ident.MoreWritten is ts) :
      Name.Written ⟨false, i :: is, Token.spanOf (t :: ts)⟩ (t :: ts)
  | relative {d t : Token} {i : Ident} {is : List Ident} {ts : List Token} (hd : d.kind = .dot)
      (hi : i.Written t) (his : Ident.MoreWritten is ts) :
      Name.Written ⟨true, i :: is, Token.spanOf (d :: t :: ts)⟩ (d :: t :: ts)

inductive TypeRef.Written : TypeRef → List Token → Prop
  | primitive {t : Token} {type : PrimitiveType} (hk : t.kind = .ident)
      (ht : PrimitiveType.ofWord? t.text = some type) :
      TypeRef.Written ⟨.primitive type, t.span⟩ [t]
  | named {n : Name} {t : Token} {ts : List Token} (hn : n.Written (t :: ts))
      (ht : t.kind = .ident → PrimitiveType.ofWord? t.text = none) :
      TypeRef.Written ⟨.named n, n.span⟩ (t :: ts)

/-- A type after a name, on its line, or nothing. -/
inductive TypeRef.AnnotationWritten : Option TypeRef → List Token → Prop
  | none : AnnotationWritten none []
  | some {type : TypeRef} {ts : List Token} (hc : Continues .ident ts) (ht : type.Written ts) :
      AnnotationWritten (some type) ts

/-- Items up to the token that closes their list, each ended by a separator, a line break or that
token. -/
inductive ListWritten {α : Type} (separators : List TokenKind) (close : TokenKind)
    (written : α → List Token → Prop) (ends : List Token → α → Prop) :
    List α → List Token → Prop
  | done {t : Token} (ht : t.kind = close) : ListWritten separators close written ends [] [t]
  | separated {a : α} {as : List α} {t : Token} {ts us : List Token} (ha : written a ts)
      (he : ends (t :: us) a) (ht : t.kind ∈ separators)
      (hs : ListWritten separators close written ends as us) :
      ListWritten separators close written ends (a :: as) (ts ++ t :: us)
  | unseparated {a : α} {as : List α} {t : Token} {ts us : List Token} (ha : written a ts)
      (he : ends (t :: us) a) (ht : t.kind ∉ separators)
      (hb : t.kind = close ∨ t.newlineBefore = true)
      (hs : ListWritten separators close written ends as (t :: us)) :
      ListWritten separators close written ends (a :: as) (ts ++ t :: us)

end Script
