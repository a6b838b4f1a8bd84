import Script.Proofs.Moved.Front
import Script.Proofs.Tiles

/-!
Parts of a source that are lexed again. Whatever part begins with a token of the source and ends
with one, or goes on to the end, is read as the same tokens: only what stood before the first of
them is forgotten. The holes of strings are read in this way.
-/
namespace Script

open Chars

variable {source : String} {ts us vs : List Token} {t : Token} {last : Except LexError Token}

namespace Lexer

/-- What a reader hands out in enough calls tells its tokens and what comes last. -/
theorem HandsOut.collect {l : Lexer} (h : l.HandsOut ts last) {calls : Nat}
    (hcalls : ts.length < calls) :
    (l.answers calls).filterMap id = ts.map Except.ok ++ [last] := by
  rw [h calls, List.take_append, List.take_of_length_le (by simp; omega)]
  simp

theorem HandsOut.unique {l : Lexer} {last' : Except LexError Token} (h : l.HandsOut ts last)
    (h' : l.HandsOut us last') : ts = us ∧ last = last' := by
  have hts : ts.length < ts.length + us.length + 1 := by omega
  have hus : us.length < ts.length + us.length + 1 := by omega
  have hsame : ts.map Except.ok ++ [last] = us.map Except.ok ++ [last'] := by
    rw [← h.collect hts, h'.collect hus]
  obtain ⟨htokens, hlast⟩ := List.append_inj' hsame rfl
  exact ⟨(List.map_inj_right fun _ _ => Except.ok.inj).1 htokens, List.head_eq_of_cons_eq hlast⟩

end Lexer

/-- From any of its tokens on, a source is read as by a run that begins there. -/
theorem Lexed.from_token (h : (Lexed.ofString 0 source).tokens = us ++ t :: ts) :
    ∃ pre cs rest after, source.toList = pre ++ (cs ++ rest) ∧ t.start = byteLength pre ∧
      Scans (byteLength pre) false cs rest (Token.refront false (t :: ts)) after ∧
      Lexed.Stops (byteLength pre + byteLength cs) after rest (Lexed.ofString 0 source).last := by
  obtain ⟨cs, rest, after, hsource, hscans, hstops⟩ := Lexed.scans 0 source
  rw [h] at hscans
  obtain ⟨a, cs, newline, rfl, hfrom⟩ := hscans.from_any
  obtain ⟨b, cs, newline, rfl, hfrom, hstart⟩ := hfrom.from_token
  have hpos : 0 + byteLength a + byteLength b = byteLength (a ++ b) := by
    rw [byteLength_append, Nat.zero_add]
  rw [hpos] at hfrom hstart
  refine ⟨a ++ b, cs, rest, after, ?_, hstart, hfrom.restart hstart false, ?_⟩
  · rw [hsource]
    simp only [List.append_assoc]
  · simpa only [byteLength_append, Nat.zero_add, Nat.add_assoc] using hstops

theorem Token.refront_stop (b : Bool) (ts : List Token) :
    (Token.refront b ts).getLast?.map Token.stop = ts.getLast?.map Token.stop := by
  cases ts with
  | nil => rfl
  | cons t ts =>
    cases ts with
    | nil => rfl
    | cons u ts => simp only [Token.refront, List.getLast?_cons_cons]

/-- From any of its tokens on, a source is lexed as before. -/
theorem Lexed.ofRange_rest (h : (Lexed.ofString 0 source).tokens = us ++ t :: ts) :
    Lexed.ofRange source t.start source.utf8ByteSize =
      ⟨Token.refront false (t :: ts), (Lexed.ofString 0 source).last⟩ := by
  obtain ⟨pre, cs, rest, after, hsource, hstart, hscans, hstops⟩ := Lexed.from_token h
  have hslice := slice_append pre (cs ++ rest) []
  rw [← byteLength_append, List.append_nil, ← hsource, byteLength_toList, ← hstart] at hslice
  rw [Lexed.ofRange, Lexed.ofChars, hslice, hstart, hscans.finish, Lexed.stops_last hstops,
    List.append_nil]

/-- From one of its tokens to another, a source is lexed as before. -/
theorem Lexed.ofRange_part {v : Token}
    (h : (Lexed.ofString 0 source).tokens = us ++ t :: (ts ++ vs))
    (hv : (t :: ts).getLast? = some v) :
    Lexed.ofRange source t.start v.stop =
      ⟨Token.refront false (t :: ts), .ok (Token.endAt v.stop false)⟩ := by
  obtain ⟨pre, cs, rest, after, hsource, hstart, hscans, -⟩ := Lexed.from_token h
  rw [← List.cons_append, Token.refront_append false (List.cons_ne_nil t ts)] at hscans
  obtain ⟨mid, post, rfl, hscans, hstop⟩ := hscans.upto (by simp [Token.refront])
  rw [Token.refront_stop, hv, Option.map_some, Option.some.injEq] at hstop
  have hslice := slice_append pre mid (post ++ rest)
  rw [← List.append_assoc mid, ← hsource, ← hstop, ← hstart] at hslice
  have hend : Milder (post ++ rest) [] := by simp [Milder]
  have hfinish := (hscans.milder hend).finish
  rw [List.append_nil, ← hstop] at hfinish
  rw [Lexed.ofRange, Lexed.ofChars, hslice, hstart, hfinish]
  simp [Lexed.scanFrom]

theorem Lexed.ofRange_all (source : String) :
    Lexed.ofRange source 0 source.utf8ByteSize = Lexed.ofString 0 source := by
  have hslice := slice_append [] source.toList []
  rw [byteLength_toList, List.append_nil, List.nil_append, byteLength, Nat.zero_add] at hslice
  rw [Lexed.ofRange, hslice, Lexed.ofString]

/-- A range that begins with one token of a source and ends with another is lexed as the tokens from
the one to the other, and from the one on the rest of the source is lexed as before, except that no
line break is seen before the first token. -/
theorem Lexer.relexed (h : (Lexer.ofString source).HandsOut ts last) {i j : Nat} (hij : i ≤ j)
    (hj : j < ts.length) :
    tokenizeRange source ts[i].start ts[j].stop =
        .ok (Token.refront false ((ts.take (j + 1)).drop i) ++ [Token.endAt ts[j].stop false]) ∧
      (Lexer.atOffset source ts[i].start).HandsOut (Token.refront false (ts.drop i)) last := by
  have hlexed := Lexer.handsOut_ofRange source 0 source.utf8ByteSize
  rw [Lexed.ofRange_all] at hlexed
  obtain ⟨htokens, hlast⟩ := hlexed.unique h
  have hfrom : ts.drop i = ts[i] :: ts.drop (i + 1) := List.drop_eq_getElem_cons (by omega)
  have hupto : (ts.take (j + 1)).drop i = ts[i] :: (ts.take (j + 1)).drop (i + 1) := by
    rw [List.drop_eq_getElem_cons (by rw [List.length_take]; omega), List.getElem_take]
  have hsplit : ts.drop (i + 1) = (ts.take (j + 1)).drop (i + 1) ++ ts.drop (j + 1) := by
    rw [← List.drop_append_of_le_length (by rw [List.length_take]; omega), List.take_append_drop]
  constructor
  · have hv : (ts[i] :: (ts.take (j + 1)).drop (i + 1)).getLast? = some ts[j] := by
      rw [← hupto, List.getLast?_drop, if_neg (by rw [List.length_take]; omega),
        List.getLast?_take, if_neg (by omega), Nat.add_sub_cancel, List.getElem?_eq_getElem hj]
      rfl
    have hall : (Lexed.ofString 0 source).tokens =
        ts.take i ++ ts[i] :: ((ts.take (j + 1)).drop (i + 1) ++ ts.drop (j + 1)) := by
      rw [htokens, ← hsplit, ← hfrom, List.take_append_drop]
    rw [tokenizeRange, Lexed.result, Lexed.ofRange_part hall hv, hupto]
  · have hall : (Lexed.ofString 0 source).tokens = ts.take i ++ ts[i] :: ts.drop (i + 1) := by
      rw [htokens, ← hfrom, List.take_append_drop]
    have hrest := Lexer.handsOut_ofRange source ts[i].start source.utf8ByteSize
    rwa [Lexed.ofRange_rest hall, hlast, ← hfrom] at hrest

/-- A string with a hole and the name after it, read again out of a longer text. -/
theorem Lexer.relexed_hole :
    tokenizeRange "(\nf\"$\x7b'é'\x7d\" b/" 2 14 =
        .ok [⟨.formattedString, "f\"$\x7b'é'\x7d\"", 2, false⟩, ⟨.ident, "b", 13, false⟩,
          Token.endAt 14 false] ∧
      (Lexer.atOffset "(\nf\"$\x7b'é'\x7d\" b/" 2).HandsOut
        [⟨.formattedString, "f\"$\x7b'é'\x7d\"", 2, false⟩, ⟨.ident, "b", 13, false⟩,
          ⟨.slash, "/", 14, false⟩] (.ok (Token.endAt 15 false)) := by
  have h : (Lexer.ofString "(\nf\"$\x7b'é'\x7d\" b/").HandsOut
      [⟨.openParen, "(", 0, false⟩, ⟨.formattedString, "f\"$\x7b'é'\x7d\"", 2, true⟩,
        ⟨.ident, "b", 13, false⟩, ⟨.slash, "/", 14, false⟩] (.ok (Token.endAt 15 false)) :=
    Lexer.handsOut_ofRange "(\nf\"$\x7b'é'\x7d\" b/" 0 15
  exact Lexer.relexed h (i := 1) (j := 2) (by decide) (by decide)

end Script
