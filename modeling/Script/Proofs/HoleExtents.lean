import Script.Proofs.Interpolation
import Script.Proofs.Lexing.HoleBodies
import Script.Proofs.Safety

/-!
The extent of a hole is told by the hole alone. It ends with a brace, whatever stands behind that
brace is left out of account, and what stands before it is a text of its own, with tokens that close
each other's braces. So the lexer, which has the rest of the source in view, and the decoder, which
has the body of one literal, measure alike.
-/
namespace Script

open Chars

/-- What it says of a text that a hole at its front takes `n` characters. -/
structure HoleExtent (s : List Char) (n : Nat) : Prop where
  pos : 1 ≤ n
  le : n ≤ s.length
  last : s[n - 1]? = some '}'
  /-- Another text may stand behind the hole, or none. -/
  stays : ∀ t, holeLength (s.take n ++ t) = .ok n
  tokens : ∃ ts last, tokenize (String.ofList (s.take (n - 1))) = .ok (ts ++ [last]) ∧
    Token.ClosesBraces 0 ts
  bytes : ∀ bound, s.length < bound →
    Bytes.holeWithin bound s = .ok (.ok (byteLength (s.take n)))

/-- In the body of a literal at byte position `pos`, a hole has this span, and it is measured over
the rest of the body as it is where `behind` follows the body. -/
def MeasuredAlike (pos : Nat) (body behind : List Char) (span : Span) : Prop :=
  ∃ before rest n, body = before ++ '$' :: '{' :: rest ∧
    span = ⟨pos + byteLength before, pos + byteLength before + 2 + byteLength (rest.take n)⟩ ∧
    holeLength rest = .ok n ∧ holeLength (rest ++ behind) = .ok n

/-- The text before the closing brace of a hole is lexed without error wherever it stands. -/
theorem holeLength_lexed {s : List Char} {n : Nat} (h : holeLength s = .ok n) (base : Nat) :
    ∃ ts last, (Lexed.ofChars base (s.take (n - 1))).result = .ok (ts ++ [last]) ∧
      Token.ClosesBraces 0 ts := by
  obtain ⟨w, r, rfl, rfl, hscans⟩ := holeLengthWithin_scans h
  obtain ⟨ts, after, hscans, hbraces⟩ := hscans base false
  have halone : Scans base false w [] ts after := hscans.milder (by simp [Milder])
  have hfinish := halone.finish
  rw [List.append_nil] at hfinish
  rw [Nat.add_sub_cancel, List.take_left, Lexed.ofChars, hfinish]
  exact ⟨ts ++ [], _, rfl, by rwa [List.append_nil]⟩

theorem holeLength_extent {s : List Char} {n : Nat} (h : holeLength s = .ok n) :
    HoleExtent s n := by
  obtain ⟨⟨hpos, hle⟩, -⟩ := holeLengthWithin_local h
  obtain ⟨w, r, hs, hn, -⟩ := holeLengthWithin_scans h
  refine ⟨hpos, hle, ?_, holeLength_local n s n h (Nat.le_refl n), ?_, fun bound hbound => ?_⟩
  · rw [hs, hn, Nat.add_sub_cancel, List.getElem?_append_right (Nat.le_refl _), Nat.sub_self]
    rfl
  · rw [tokenize, Lexed.ofString, String.toList_ofList]
    exact holeLength_lexed h 0
  · have hbytes := Bytes.holeWithin_ok bound s.length hbound (Nat.le_refl _)
    rw [hbytes]
    show Except.ok (Bytes.inBytes s (holeLength s)) = _
    rw [h]
    rfl

/-- A hole that is measured within a body is measured so with more text behind the body. -/
theorem holeLength_append {s : List Char} {n : Nat} (h : holeLength s = .ok n) (t : List Char) :
    holeLength (s ++ t) = .ok n := by
  have hstays := (holeLength_extent h).stays (s.drop n ++ t)
  rwa [← List.append_assoc, List.take_append_drop] at hstays

namespace MeasuredAlike

variable {pos n : Nat} {pre body behind rest : List Char} {span : Span}

theorem hole (h : holeLength rest = .ok n) (pos : Nat) (behind : List Char) :
    MeasuredAlike pos ('$' :: '{' :: rest) behind ⟨pos, pos + 2 + byteLength (rest.take n)⟩ :=
  ⟨[], rest, n, rfl, rfl, h, holeLength_append h behind⟩

theorem after (h : MeasuredAlike (pos + byteLength pre) body behind span) :
    MeasuredAlike pos (pre ++ body) behind span := by
  obtain ⟨before, rest, n, rfl, rfl, hbody, hlong⟩ := h
  refine ⟨pre ++ before, rest, n, by rw [List.append_assoc], ?_, hbody, hlong⟩
  rw [byteLength_append, Nat.add_assoc pos]

end MeasuredAlike

/-- Whatever the scanner steps over is a hole of the body, and measured alike. -/
theorem Scanned.measured {form : StringForm} {pos : Nat} {body post : List Char}
    {spans : List Span} (h : Scanned form pos body post spans) :
    ∀ span ∈ spans, MeasuredAlike pos body (form.closer ++ post) span := by
  -- A hole is stepped over as a whole, so the induction is on the length of the body.
  induction hn : body.length using Nat.strong_induction_on generalizing pos body spans with
  | _ n ih =>
    subst hn
    cases body with
    | nil => simp [h.nil]
    | cons c body =>
      have hone : ∀ {spans'}, Scanned form (pos + c.utf8Size) body post spans' →
          ∀ span ∈ spans', MeasuredAlike pos (c :: body) (form.closer ++ post) span := by
        intro spans' hrest span hspan
        exact @MeasuredAlike.after pos [c] _ _ _ (ih body.length (by simp) hrest rfl span hspan)
      by_cases hescape : (decide (c = '\\') && form.hasEscapes) = true
      · obtain ⟨hslash, he⟩ := (Bool.and_eq_true _ _).mp hescape
        obtain rfl := of_decide_eq_true hslash
        obtain ⟨e, rest, rfl, hrest⟩ := h.escape he
        intro span hspan
        have hin := ih rest.length (by simp only [List.length_cons]; omega) hrest rfl span hspan
        have hpos : pos + 1 + e.utf8Size = pos + byteLength ['\\', e] := by
          simp only [byteLength, Nat.add_zero, Nat.add_assoc]
          rfl
        rw [hpos] at hin
        exact @MeasuredAlike.after pos ['\\', e] _ _ _ hin
      by_cases hdollar : (decide (c = '$') && form.hasHoles) = true
      · obtain ⟨hc, hf⟩ := (Bool.and_eq_true _ _).mp hdollar
        obtain rfl := of_decide_eq_true hc
        by_cases hbrace : body.head? = some '{'
        · obtain ⟨rest, rfl⟩ := List.head?_eq_some_iff.1 hbrace
          obtain ⟨k, inner, hk, rfl, hrest⟩ := h.hole hf
          intro span hspan
          rcases List.mem_cons.1 hspan with rfl | hspan
          · exact .hole hk pos _
          · have hlen : (rest.drop k).length < ('$' :: '{' :: rest).length := by
              simp only [List.length_drop, List.length_cons]
              omega
            have hin := ih _ hlen hrest rfl span hspan
            have hafter := @MeasuredAlike.after pos ('$' :: '{' :: rest.take k) _ _ span (by
              rwa [byteLength, byteLength, ← Nat.add_assoc, ← Nat.add_assoc])
            rwa [List.cons_append, List.cons_append, List.take_append_drop] at hafter
        · have hname : ∀ d ∈ ['$'], RawHole.NameChar d := by
            simp only [List.mem_singleton, forall_eq]
            exact .inl (by decide)
          exact hone (@Scanned.name form pos ['$'] body post spans hname (fun _ => hbrace) h)
      · exact hone (h.plain hescape hdollar)

namespace RawHole

variable {h : RawHole} {pos : Nat} {cs : List Char}

/-- A hole with braces that is found in a body is measured alike. -/
theorem Found.measured (hf : h.Found pos cs) (hk : h.kind = .expr) (behind : List Char) :
    MeasuredAlike pos cs behind h.span := by
  obtain ⟨pre, body, n, rfl, hread⟩ := hf
  obtain ⟨rest, m, rfl, hm, rfl⟩ := read_expr hread hk
  rw [Piece.span_hole hm]
  exact (MeasuredAlike.hole hm _ behind).after

/-- The text between its braces is lexed without error, wherever it stands. -/
theorem Found.lexed (hf : h.Found pos cs) (hk : h.kind = .expr) :
    ∃ ts last, (Lexed.ofString h.start h.text).result = .ok (ts ++ [last]) ∧
      Token.ClosesBraces 0 ts := by
  obtain ⟨pre, body, n, rfl, hread⟩ := hf
  obtain ⟨rest, m, rfl, hm, rfl⟩ := read_expr hread hk
  rw [Lexed.ofString, String.toList_ofList]
  exact holeLength_lexed hm _

end RawHole

/-- What is measured as a hole is measured so whatever follows it, and is a closing brace after a
text of its own, which is lexed without error and whose braces are balanced. So in every string
token of a text that stands in a source, be it the source or the text of a hole in it, the holes
that the lexer steps over and those that the decoder finds are measured alike over the body of the
literal and over the rest of the text, and the range between the braces of such a hole is lexed
without error. -/
theorem Token.hole_extents :
    (∀ s n, holeLength s = .ok n → HoleExtent s n) ∧
    ∀ (source : String) (base : Nat) (text : String), StandsIn source base text.toList →
      ∀ t ∈ (Lexed.ofString base text).tokens, t.kind.isString = true →
        ∃ form spans before behind,
          t.Stepped base text.toList form spans before (form.body t.text.toList ++ behind) ∧
          (∀ span ∈ spans, MeasuredAlike (t.start + byteLength form.opener)
            (form.body t.text.toList) behind span) ∧
          ∀ d, decode t.text t.start = .ok d → ∀ h, .hole h ∈ d.pieces → h.kind = .expr →
            MeasuredAlike (t.start + byteLength form.opener) (form.body t.text.toList) behind
              h.span ∧
            StandsIn source h.start h.text.toList ∧
            ∃ ts last, tokenizeRange source h.inner.start h.inner.stop = .ok (ts ++ [last]) ∧
              Token.ClosesBraces 0 ts := by
  refine ⟨fun s n => holeLength_extent, fun source base text hstands t ht hk => ?_⟩
  obtain ⟨form, spans, before, after, hstepped⟩ := stepped ht hk
  obtain ⟨post, hafter, ho, hscanned⟩ := hstepped.body
  have hplaced : t.Placed source := by
    refine Lexed.placed hstands t ?_
    rw [Lexed.cursor_rest]
    exact List.mem_append_left _ ht
  refine ⟨form, spans, before, form.closer ++ post, hafter ▸ hstepped, hscanned.measured, ?_⟩
  intro d hd h hh hexpr
  have hfound := decode_found (by rw [ho, Option.getD_some]) hd hh
  have hinner := hplaced.hole hk hd hh
  refine ⟨hfound.measured hexpr _, hinner, ?_⟩
  rw [tokenizeRange, h.inner_stop]
  show ∃ ts last, (Lexed.ofRange source h.start _).result = _ ∧ _
  rw [hinner.lexed.2]
  exact hfound.lexed hexpr

/-- A hole with braces in it that are no brackets, and a hole in a literal in a hole. -/
theorem Token.hole_extents_nested :
    holeLength "\x7b\x7d/*\x7d*/'\x7d'\x7d'".toList = .ok 11 ∧
      HoleExtent "\x7b\x7d/*\x7d*/'\x7d'\x7d'".toList 11 ∧
      StandsIn "f\"$\x7bf\"$\x7ba\x7d\"\x7d\"" 4 "f\"$\x7ba\x7d\"".toList ∧
      ⟨.formattedString, "f\"$\x7ba\x7d\"", 4, false⟩ ∈
        (Lexed.ofString 4 "f\"$\x7ba\x7d\"").tokens ∧
      decode "f\"$\x7ba\x7d\"" 4 = .ok ⟨.formatted, [.hole ⟨.expr, "a", 6⟩]⟩ ∧
      ∃ behind, MeasuredAlike (4 + 2) "$\x7ba\x7d".toList behind ⟨6, 10⟩ ∧
        ∃ ts last, tokenizeRange "f\"$\x7bf\"$\x7ba\x7d\"\x7d\"" 8 9 = .ok (ts ++ [last]) ∧
          Token.ClosesBraces 0 ts := by
  obtain ⟨hextent, htokens⟩ := hole_extents
  have hlength : holeLength "\x7b\x7d/*\x7d*/'\x7d'\x7d'".toList = .ok 11 :=
    eq_ok_of_toOption (by decide +kernel)
  have hstands : StandsIn "f\"$\x7bf\"$\x7ba\x7d\"\x7d\"" 4 "f\"$\x7ba\x7d\"".toList :=
    ⟨"f\"$\x7b".toList, "\x7d\"".toList, by decide, by decide⟩
  have hmem : ⟨.formattedString, "f\"$\x7ba\x7d\"", 4, false⟩ ∈
      (Lexed.ofString 4 "f\"$\x7ba\x7d\"").tokens := by decide +kernel
  have hdecode : decode "f\"$\x7ba\x7d\"" 4 = .ok ⟨.formatted, [.hole ⟨.expr, "a", 6⟩]⟩ :=
    eq_ok_of_toOption (by decide +kernel)
  obtain ⟨form, spans, before, behind, hstepped, -, hholes⟩ :=
    htokens _ 4 _ hstands _ hmem rfl
  obtain ⟨post, -, ho, -⟩ := hstepped.body
  have hform : StringForm.opening? "f\"$\x7ba\x7d\"".toList = some .formatted := by decide
  obtain rfl : .formatted = form := Option.some.inj (hform.symm.trans ho)
  obtain ⟨halike, -, hrange⟩ := hholes _ hdecode _ (List.mem_singleton.2 rfl) rfl
  exact ⟨hlength, hextent _ _ hlength, hstands, hmem, hdecode, behind, halike, hrange⟩

end Script
