import Script.Token.Lexed
import Script.Token.Pieces

/-!
What is read at one go: the tokens of a whole text, and those of a hole in one of its strings, which
stand further on than the opening of the string and are no tokens of the text around it.
-/
namespace Script

inductive Lexed.Reading (source : String) : List Token → Prop
  | whole {ts : List Token} {last : Token} (h : Lexed.ofString 0 source = ⟨ts, .ok last⟩) :
      Reading source ts
  | hole {ts us : List Token} {t last : Token} {d : Decoded} {h : RawHole}
      (hr : Reading source ts) (ht : t ∈ ts) (hk : t.kind.isString = true)
      (hd : decode t.text t.start = .ok d) (hh : .hole h ∈ d.pieces)
      (hl : Lexed.ofString h.start h.text = ⟨us, .ok last⟩) : Reading source us

end Script
