import Script.Proofs.Lexing.Scans
import Script.Token.Word

/-!
What is known of the tokens of a text: each is read from its own text alone, whatever stands around
it, and its text is the part of the source that its span covers.
-/
namespace Script

open Chars Lexeme

namespace Chars

theorem dropBytes_append (a b : List Char) : dropBytes (byteLength a) (a ++ b) = b := by
  induction a with
  | nil => cases b <;> rfl
  | cons c a ih =>
    obtain ⟨n, hn⟩ := Nat.exists_eq_add_of_lt c.utf8Size_pos
    have hsum : byteLength (c :: a) = (n + byteLength a) + 1 := by
      rw [byteLength]
      omega
    rw [hsum, List.cons_append, dropBytes]
    have hrest : n + byteLength a + 1 - c.utf8Size = byteLength a := by omega
    rw [hrest, ih]

theorem takeBytes_append (a b : List Char) : takeBytes (byteLength a) (a ++ b) = a := by
  induction a with
  | nil => cases b <;> rfl
  | cons c a ih =>
    obtain ⟨n, hn⟩ := Nat.exists_eq_add_of_lt c.utf8Size_pos
    have hsum : byteLength (c :: a) = (n + byteLength a) + 1 := by
      rw [byteLength]
      omega
    rw [hsum, List.cons_append, takeBytes]
    have hrest : n + byteLength a + 1 - c.utf8Size = byteLength a := by omega
    rw [hrest, ih]

/-- Parts of one text with the same number of bytes in front are the same parts. -/
theorem append_inj {a b c d : List Char} (h : a ++ b = c ++ d)
    (hsize : byteLength a = byteLength c) : a = c ∧ b = d := by
  have ha := takeBytes_append a b
  have hb := dropBytes_append a b
  rw [h, hsize, takeBytes_append] at ha
  rw [h, hsize, dropBytes_append] at hb
  exact ⟨ha.symm, hb.symm⟩

theorem slice_append (pre mid post : List Char) :
    slice (byteLength pre) (byteLength pre + byteLength mid) (pre ++ (mid ++ post)) = mid := by
  rw [slice, dropBytes_append, Nat.add_sub_cancel_left, takeBytes_append]

end Chars

/-- A word that is read from its text alone. -/
def Word.Readable (w : Word) : Prop :=
  ∃ c cs, w.text.toList = c :: cs ∧ scan holeLength c cs = .ok (.token w.kind, cs.length)

theorem Word.Readable.size {w : Word} (h : w.Readable) : 0 < w.text.utf8ByteSize := by
  obtain ⟨c, cs, htext, -⟩ := h
  rw [← byteLength_toList, htext, byteLength]
  have := c.utf8Size_pos
  omega

theorem Word.Readable.kind {w : Word} (h : w.Readable) : w.kind ≠ .endOfText := by
  obtain ⟨c, cs, -, hscan⟩ := h
  exact (reads_of_scan hscan).ne_end

theorem Word.Readable.symbol {w : Word} (h : w.Readable) {s : String}
    (hs : w.kind.symbolText? = some s) : w.text = s := by
  obtain ⟨c, cs, htext, hscan⟩ := h
  have htext : w.text = String.ofList (c :: cs) := by rw [← htext, String.ofList_toList]
  generalize w.kind = k at hs hscan
  generalize hn : cs.length = n at hscan
  cases reads_of_scan hscan with
  | number => simp [TokenKind.symbolText?] at hs
  | ident => simp [TokenKind.symbolText?] at hs
  | @string form => cases form <;> simp [stringKind, TokenKind.symbolText?] at hs
  | @symbol _ n _ _ _ _ hsymbol =>
    rw [htext]
    unfold symbol? at hsymbol
    split at hsymbol <;> rename_i hcons <;>
      simp only [Option.some.injEq, Prod.mk.injEq, reduceCtorEq] at hsymbol
    all_goals
      obtain ⟨rfl, rfl⟩ := hsymbol
      obtain ⟨rfl, rfl⟩ := List.cons.inj hcons
      simp only [List.length_cons, Nat.add_one_sub_one, Nat.sub_self, Nat.add_eq_right,
        List.length_eq_zero_iff] at hn
      subst hn
      simp only [TokenKind.symbolText?, Option.some.injEq] at hs
      rw [← hs]

theorem Word.Readable.string {w : Word} (h : w.Readable) (hw : w.kind.isString = true) :
    ∃ form, StringForm.opening? w.text.toList = some form ∧ w.kind = stringKind form := by
  obtain ⟨c, cs, htext, hscan⟩ := h
  rw [htext]
  generalize w.kind = k at hw hscan
  generalize cs.length = n at hscan
  cases reads_of_scan hscan with
  | number => simp [TokenKind.isString] at hw
  | ident => simp [TokenKind.isString] at hw
  | @string form _ _ ho => exact ⟨form, ho, rfl⟩
  | symbol _ _ _ _ hs =>
    have := (symbol?_kind hs).1
    rw [hw] at this
    cases this

namespace Scans

variable {pos : Nat} {newline after : Bool} {cs r : List Char} {ts : List Token}

/-- Where a token of a run stands in the text, and that it is read there. -/
theorem read (h : Scans pos newline cs r ts after) {t : Token} (ht : t ∈ ts) :
    ∃ pre c w post, cs = pre ++ (c :: (w ++ post)) ∧ t.start = pos + byteLength pre ∧
      t.text.toList = c :: w ∧
      scan holeLength c (w ++ (post ++ r)) = .ok (.token t.kind, w.length) := by
  induction h with
  | done => cases ht
  | @blank _ _ _ b _ _ _ hc h ih =>
    obtain ⟨pre, c, w, post, rfl, hstart, hread⟩ := ih ht
    exact ⟨b :: pre, c, w, post, rfl, by rw [hstart, byteLength, Nat.add_assoc], hread⟩
  | @comment _ _ _ b v _ _ _ hc hs h ih =>
    obtain ⟨pre, c, w, post, rfl, hstart, hread⟩ := ih ht
    refine ⟨b :: (v ++ pre), c, w, post, by simp, ?_, hread⟩
    rw [hstart, ← List.cons_append, byteLength_append, Nat.add_assoc]
  | @token pos newline _ b v cs rest k ts hs h ih =>
    rcases List.mem_cons.1 ht with rfl | ht
    · exact ⟨[], b, v, cs, rfl, rfl, by simp, hs⟩
    · obtain ⟨pre, c, w, post, rfl, hstart, hread⟩ := ih ht
      refine ⟨b :: (v ++ pre), c, w, post, by simp, ?_, hread⟩
      rw [hstart, ← List.cons_append, byteLength_append, Nat.add_assoc]

/-- Where the tokens of a run stand in its text, and that each is read from its own text. -/
theorem mem (h : Scans pos newline cs r ts after) {t : Token} (ht : t ∈ ts) :
    (∃ pre post, cs = pre ++ (t.text.toList ++ post) ∧ t.start = pos + byteLength pre) ∧
      t.word.Readable := by
  obtain ⟨pre, c, w, post, rfl, hstart, htext, hs⟩ := h.read ht
  refine ⟨⟨pre, post, by rw [htext, List.cons_append], hstart⟩, c, w, htext, ?_⟩
  have hc := (reads_of_scan hs).not_blank
  have hmilder : Milder (post ++ r) [] := by simp [Milder]
  have hlocal := scan_local hs (holeLength_local _) (Nat.le_refl _) hmilder (.inl hc)
  rwa [List.append_nil] at hlocal

end Scans

/-- A token whose text stands where the token starts has a span that covers that text. -/
theorem Token.text_of_split {source : String} {t : Token} {pre post : List Char}
    (hsource : source.toList = pre ++ (t.text.toList ++ post)) (hstart : t.start = byteLength pre) :
    t.span.text source = t.text := by
  have hstop : t.stop = byteLength pre + byteLength t.text.toList := by
    rw [Token.stop, hstart, byteLength_toList]
  rw [Span.text, Token.span, hstart, hstop, hsource, slice_append, String.ofList_toList]

/-- A token whose text is what its span covers, and is read as it. -/
structure Token.Faithful (source : String) (t : Token) : Prop where
  text : t.span.text source = t.text
  readable : t.kind ≠ .endOfText → t.word.Readable

/-- All tokens of a source are faithful to it, the end token included. -/
theorem Lexed.faithful {source : String} {ts : List Token} {last : Token}
    (h : Lexed.ofString 0 source = ⟨ts, .ok last⟩) : ∀ t ∈ ts ++ [last], t.Faithful source := by
  obtain ⟨after, hscans, hlast⟩ := lexed_iff.1 h
  intro t ht
  rcases List.mem_append.1 ht with ht | ht
  · obtain ⟨⟨pre, post, hsource, hstart⟩, hread⟩ := hscans.mem ht
    rw [Nat.zero_add] at hstart
    exact ⟨Token.text_of_split hsource hstart, fun _ => hread⟩
  · rw [List.mem_singleton] at ht
    subst ht
    subst hlast
    refine ⟨?_, fun hend => absurd rfl hend⟩
    rw [Span.text, Token.span, Token.stop, slice]
    simp only [Token.endAt, String.utf8ByteSize_empty, Nat.add_zero, Nat.sub_self]
    cases dropBytes (0 + source.utf8ByteSize) source.toList <;> rfl

/-- The tokens of a text stand within it. -/
theorem Lexed.inside {base : Nat} {text : String} {ts : List Token} {last t : Token}
    (h : Lexed.ofString base text = ⟨ts, .ok last⟩) (ht : t ∈ ts) :
    base ≤ t.start ∧ t.stop ≤ base + text.utf8ByteSize := by
  obtain ⟨after, hscans, -⟩ := lexed_iff.1 h
  obtain ⟨⟨pre, post, htext, hstart⟩, -⟩ := hscans.mem ht
  have hbytes := congrArg byteLength htext
  rw [byteLength_append, byteLength_append, byteLength_toList, byteLength_toList] at hbytes
  rw [Token.stop]
  omega

end Script
