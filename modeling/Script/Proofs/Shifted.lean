import Script.Proofs.Abreast.Program
import Script.Proofs.Joined
import Script.Proofs.Tiles

/-!
A part of a source that is read in its place. Its tokens keep their positions in the whole, so what
is read from them is what is read from the part as a text of its own, only further on.
-/
namespace Script

open Chars Script.Parser

variable {source : String} {start stop : Nat} {ts : List Token}

/-- Positions of a text and of the same text `k` bytes further on. -/
def Places.shifted (k : Nat) : Places where
  left := (· + k)
  right := id
  add n h := by
    simp only [id] at h ⊢
    omega
  max h h' := by
    simp only [id] at h h' ⊢
    omega
  min h h' := by
    simp only [id] at h h' ⊢
    omega
  total i := ⟨i + k, rfl⟩

theorem Places.like_shifted_span {k : Nat} {a b : Span} :
    (shifted k).Like a b ↔ b = a.shift k := by
  obtain ⟨start, stop⟩ := b
  rw [like_span, Span.shift, Span.mk.injEq]
  exact and_congr eq_comm eq_comm

theorem Places.map_of_shifted {k : Nat} {ts us : List Token} (h : (shifted k).Like ts us) :
    ts.map (Token.move (· + k)) = us :=
  h.trans (List.map_id' us)

/-- The tokens of a range are those of the text in it, in their places. -/
theorem Lexed.ofRange_eq (source : String) (start stop : Nat) :
    ofRange source start stop = ofString start ((Span.mk start stop).text source) := by
  rw [ofRange, ofString, Span.text, String.toList_ofList]

theorem tokenizeRange_ok (h : tokenizeRange source start stop = .ok ts) :
    ∃ tokens last, ts = tokens ++ [last] ∧
      Lexed.ofString start ((Span.mk start stop).text source) = ⟨tokens, .ok last⟩ := by
  rw [tokenizeRange, Lexed.result, Lexed.ofRange_eq] at h
  generalize Lexed.ofString start ((Span.mk start stop).text source) = l at h ⊢
  obtain ⟨tokens, last⟩ := l
  cases last with
  | ok last => exact ⟨tokens, last, (Except.ok.inj h).symm, rfl⟩
  | error e => cases h

namespace Program

theorem Boundary.text_size (hstart : Boundary source start) (hstop : Boundary source stop)
    (hle : start ≤ stop) : ((Span.mk start stop).text source).utf8ByteSize = stop - start := by
  obtain ⟨pre, mid, post, hsource, rfl, rfl⟩ := hstart.split hstop hle
  rw [Span.text, utf8ByteSize_ofList, hsource, slice_append, Nat.add_sub_cancel_left]

/-- A program is moved with its text. -/
theorem Written.shift {p : Program} (k : Nat) (h : p.Written ts) :
    ∃ span, Program.Written ⟨p.statements.map (Statement.shift k), span⟩
      (ts.map (Token.move (· + k))) := by
  obtain ⟨n, hs⟩ := h.lines
  have hmoving := Rules.level_moving (ordered_add k) (Nat.le_refl n)
  have hmoved : Statement.ListWritten (Rules.level n) (p.statements.map (Statement.shift k))
      (ts.map (Token.move (· + k))) :=
    hs.move (fun t _ => rigidAt_add k t.start) (fun _ _ h => h.move hmoving)
      fun st r h => st.endsBefore_mapSpans.2 ((alike_move _ r).statement h)
  exact ⟨_, ⟨n + 1, hmoved⟩, rfl⟩

/-- A text that is tokenized in one place is tokenized in the other. -/
theorem lexed_shifted {text : String} {tokens : List Token} {last : Token}
    (hl : Lexed.ofString start text = ⟨tokens, .ok last⟩) :
    ∃ us u, Lexed.ofString 0 text = ⟨us, .ok u⟩ ∧ (Places.shifted start).Like us tokens ∧
      (Places.shifted start).Like u last := by
  have hlike := Lexed.ofString_like (P := .shifted start) (Nat.zero_add start) text
  rw [hl] at hlike
  generalize Lexed.ofString 0 text = l at hlike
  obtain ⟨us, u⟩ := l
  obtain ⟨htokens, hlast⟩ := Lexed.mk.inj hlike
  cases u with
  | ok u => exact ⟨us, u, rfl, htokens, Except.ok.inj hlast⟩
  | error e => cases hlast

/-- What is read from the tokens of a text in its place, and from the text alone. -/
theorem read_shifted {text : String} {tokens : List Token} {last : Token}
    (hl : Lexed.ofString start text = ⟨tokens, .ok last⟩) :
    (∃ p q c, parse text = .ok p ∧ read (Cursor.start tokens last) = .ok q c ∧
        q.statements = p.statements.map (Statement.shift start) ∧
        p.span = ⟨0, text.utf8ByteSize⟩ ∧ q.span = ⟨0, start + text.utf8ByteSize⟩) ∨
      ∃ e f c, parse text = .error e ∧ read (Cursor.start tokens last) = .error f c ∧
        f.fault = e.fault ∧ f.span = e.span.shift start := by
  obtain ⟨us, u, hl', htokens, hlast⟩ := lexed_shifted hl
  have hu : (Lexed.ofString 0 text).last = .ok u := by rw [hl']
  have hus : (Lexed.ofString 0 text).tokens = us := by rw [hl']
  obtain ⟨p, q, c, d, hp, hq, -⟩ | ⟨e, f, c, d, he, hf, hef⟩ :=
    read_like hu (hus ▸ htokens) hlast
  · left
    have hparse : parse text = .ok p := ofLexed_of_ok hu hp
    obtain ⟨ts, v, hlexed, hwritten⟩ := parse_iff.1 hparse
    obtain ⟨rfl, hv⟩ := Lexed.mk.inj (hlexed.symm.trans hl')
    obtain rfl := Except.ok.inj hv
    -- Moved to its place, the program is written as the tokens there, and so it is read from them.
    obtain ⟨span, hmoved⟩ := hwritten.shift start
    have hthere : (ts ++ [v]).map (Token.move (· + start)) = tokens ++ [last] := by
      rw [List.map_append, Places.map_of_shifted htokens, Places.map_of_shifted
        (Places.like_cons.2 ⟨hlast, Places.like_nil⟩)]
    rw [hthere] at hmoved
    obtain ⟨c', hread⟩ := read_of_written (Lexed.tokens_size hl).2 hmoved
    obtain ⟨rfl, -⟩ := Outcome.ok.inj (hq.symm.trans hread)
    refine ⟨p, _, d, hparse, hq, rfl, ?_, hmoved.span_eq hl⟩
    rw [hwritten.span_eq hlexed, Nat.zero_add]
  · right
    obtain ⟨hfault, hspan⟩ := Places.like_error.1 hef
    exact ⟨e, f, d, ofLexed_of_error he (by simp [hu]), hf, hfault.symm,
      Places.like_shifted_span.1 hspan⟩

/-- The tokens of a range are read as the text in it is, only that all spans are further on by the
start of the range; that of the program begins with the whole source. -/
theorem read_range (hstart : Boundary source start) (hstop : Boundary source stop)
    (hle : start ≤ stop) (h : tokenizeRange source start stop = .ok ts) :
    ∃ tokens last, ts = tokens ++ [last] ∧
      ((∃ p q c, read (Cursor.start tokens last) = .ok p c ∧
          parse ((Span.mk start stop).text source) = .ok q ∧
          p.statements = q.statements.map (Statement.shift start) ∧
          p.span = ⟨0, stop⟩ ∧ q.span = ⟨0, stop - start⟩) ∨
        ∃ e f c, read (Cursor.start tokens last) = .error e c ∧
          parse ((Span.mk start stop).text source) = .error f ∧
          e.fault = f.fault ∧ e.span = f.span.shift start) := by
  obtain ⟨tokens, last, rfl, hl⟩ := tokenizeRange_ok h
  have hsize := hstart.text_size hstop hle
  refine ⟨tokens, last, rfl, ?_⟩
  obtain ⟨q, p, c, hq, hp, hshift, hqspan, hpspan⟩ | ⟨f, e, c, hf, he, hfault, hspan⟩ :=
    read_shifted hl
  · rw [hsize] at hqspan hpspan
    rw [Nat.add_sub_cancel' hle] at hpspan
    exact .inl ⟨p, q, c, hp, hq, hshift, hpspan, hqspan⟩
  · exact .inr ⟨e, f, c, he, hf, hfault, hspan⟩

/-- A string with a hole in a hole, behind a wide character and before what is no program. -/
theorem read_range_hole : Boundary "é f\"$\x7bf\"$a\"\x7d\" )" 3 ∧
    Boundary "é f\"$\x7bf\"$a\"\x7d\" )" 14 ∧
    ∃ tokens last p q c,
      tokenizeRange "é f\"$\x7bf\"$a\"\x7d\" )" 3 14 = .ok (tokens ++ [last]) ∧
      read (Cursor.start tokens last) = .ok p c ∧ parse "f\"$\x7bf\"$a\"\x7d\"" = .ok q ∧
      p.statements = q.statements.map (Statement.shift 3) ∧ p.span = ⟨0, 14⟩ ∧
      q.span = ⟨0, 11⟩ := by
  have hstart : Boundary "é f\"$\x7bf\"$a\"\x7d\" )" 3 :=
    ⟨['é', ' '], "f\"$\x7bf\"$a\"\x7d\" )".toList, by decide, by decide⟩
  have hstop : Boundary "é f\"$\x7bf\"$a\"\x7d\" )" 14 :=
    ⟨"é f\"$\x7bf\"$a\"\x7d\"".toList, [' ', ')'], by decide, by decide⟩
  have htext : (Span.mk 3 14).text "é f\"$\x7bf\"$a\"\x7d\" )" = "f\"$\x7bf\"$a\"\x7d\"" := by
    decide
  obtain ⟨ts, hts⟩ : ∃ ts, tokenizeRange "é f\"$\x7bf\"$a\"\x7d\" )" 3 14 = .ok ts :=
    exists_of_isOk rfl
  obtain ⟨tokens, last, rfl, h | ⟨e, f, c, -, hf, -⟩⟩ := read_range hstart hstop (by decide) hts
  · obtain ⟨p, q, c, h⟩ := h
    rw [htext] at h
    exact ⟨hstart, hstop, tokens, last, p, q, c, hts, h⟩
  · have hok : (parse "f\"$\x7bf\"$a\"\x7d\"").isOk = true := by decide +kernel
    rw [htext] at hf
    rw [hf] at hok
    cases hok

end Program

end Script
