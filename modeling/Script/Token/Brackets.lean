import Script.Token.Word

/-!
The brackets among tokens. Which bracket a place stands in is told by the tokens before it alone: it
is the last one that was opened there and has not been closed.
-/
namespace Script

def TokenKind.isCloser : TokenKind → Bool
  | closeParen | closeBrace | closeBracket => true
  | _ => false

namespace Token

/-- The brackets that are open after a token, innermost first. -/
def enter (opened : List Token) (t : Token) : List Token :=
  if t.kind.isOpener then t :: opened
  else if t.kind.isCloser then opened.tail
  else opened

/-- The brackets that are open at the end of some tokens, innermost first. -/
def unclosed (ts : List Token) : List Token := ts.foldl enter []

/-- Tokens in which every bracket is closed in its turn. -/
inductive Balanced : List Token → Prop
  | nil : Balanced []
  | plain {t : Token} {ts : List Token} (ho : t.kind.isOpener = false)
      (hc : t.kind.isCloser = false) (h : Balanced ts) : Balanced (t :: ts)
  | bracketed {o c : Token} {ts us : List Token} (ho : o.kind.isOpener = true) (hts : Balanced ts)
      (hc : c.kind.isCloser = true) (hus : Balanced us) : Balanced (o :: (ts ++ c :: us))

/-- The braces that some tokens close are those that they open and `depth` more, and no front part
of them closes more than these. -/
structure ClosesBraces (depth : Nat) (ts : List Token) : Prop where
  front : ∀ us, us <+: ts →
    us.countP (·.kind == .closeBrace) ≤ us.countP (·.kind == .openBrace) + depth
  all : ts.countP (·.kind == .closeBrace) = ts.countP (·.kind == .openBrace) + depth

namespace ClosesBraces

variable {depth : Nat} {t : Token} {ts : List Token}

theorem nil : ClosesBraces 0 [] := by
  refine ⟨fun us hus => ?_, rfl⟩
  rw [List.prefix_nil.1 hus]
  exact Nat.le_refl _

/-- One more token in front, which opens or closes a brace or does neither. -/
theorem cons {depth' : Nat} (h : ClosesBraces depth ts)
    (ht : depth' + [t].countP (·.kind == .openBrace) = depth + [t].countP (·.kind == .closeBrace)) :
    ClosesBraces depth' (t :: ts) := by
  obtain ⟨hfront, hall⟩ := h
  simp only [List.countP_singleton] at ht
  constructor
  · intro us hus
    rcases List.prefix_cons_iff.1 hus with rfl | ⟨vs, rfl, hvs⟩
    · exact Nat.zero_le _
    · have hle := hfront vs hvs
      simp only [List.countP_cons]
      omega
  · simp only [List.countP_cons]
    omega

end ClosesBraces

end Token

end Script
