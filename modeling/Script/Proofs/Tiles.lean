import Script.Proofs.Boundaries.Statement
import Script.Proofs.Lexing.Gaps
import Script.Token.Lexer

/-!
A reader of tokens takes a range of a source apart without a loss. The tokens that it hands out, the
one thing that comes last and the gaps before each of them cover the range from its start to its
end.
-/
namespace Script

open Chars Program

variable {source : String} {start stop : Nat} {ts : List Token} {last : Except LexError Token}

/-- A gap from `start` to `stop` in a range that goes on to `limit`, with `newline` telling whether
there is a line feed in it. -/
structure GapAt (source : String) (start stop limit : Nat) (newline : Bool) : Prop where
  le : start ≤ stop
  boundary : Boundary source stop
  gap : Gap (slice stop limit source.toList) (slice start stop source.toList)
  newline : newline = true ↔ '\n' ∈ slice start stop source.toList

/-- From `start` on, a range that ends at `limit` is covered by some tokens, by what comes last and
by the gaps before each of them. -/
inductive Tiles (source : String) (limit : Nat) :
    Nat → List Token → Except LexError Token → Prop
  | done {start : Nat} {newline : Bool} (hgap : GapAt source start limit limit newline) :
      Tiles source limit start [] (.ok (Token.endAt limit newline))
  | error {start : Nat} {newline : Bool} {e : LexError}
      (hgap : GapAt source start e.span.start limit newline)
      (hspan : e.span.start ≤ e.span.stop ∧ e.span.stop ≤ limit) :
      Tiles source limit start [] (.error e)
  | token {start : Nat} {t : Token} {ts : List Token} {last : Except LexError Token}
      (hgap : GapAt source start t.start limit t.newlineBefore) (hkind : t.kind ≠ .endOfText)
      (htext : t.span.text source = t.text) (hspan : t.start < t.stop ∧ t.stop ≤ limit)
      (h : Tiles source limit t.stop ts last) : Tiles source limit start (t :: ts) last

/-- A reader hands out some tokens, then one last answer, and nothing after that. -/
def Lexer.HandsOut (l : Lexer) (ts : List Token) (last : Except LexError Token) : Prop :=
  ∀ calls, l.answers calls =
    ((ts.map Except.ok ++ [last]).map some ++ List.replicate calls none).take calls

namespace Lexer

/-- One call reads what the lexer of whole texts reads first. -/
theorem readFrom_cases (skip pos : Nat) (newline : Bool) (cs : List Char) :
    (∃ l, readFrom skip pos newline cs = ((Lexed.scanFrom skip pos newline cs).last, l) ∧
      l.done = true ∧ (Lexed.scanFrom skip pos newline cs).tokens = []) ∨
    ∃ t l, readFrom skip pos newline cs = (.ok t, l) ∧ l.done = false ∧
      Lexed.scanFrom skip pos newline cs =
        ⟨t :: (Lexed.scanFrom 0 l.position false l.rest).tokens,
          (Lexed.scanFrom 0 l.position false l.rest).last⟩ := by
  induction cs generalizing skip pos newline with
  | nil => exact .inl ⟨_, rfl, rfl, rfl⟩
  | cons c cs ih =>
    cases skip with
    | succ k => exact ih k pos newline
    | zero =>
      cases hscan : Lexeme.scan holeLength c cs with
      | error misfit =>
        left
        refine ⟨⟨pos, c :: cs, true⟩, ?_, rfl, ?_⟩
        · simp only [readFrom, Lexed.scanFrom, hscan]
        · simp only [Lexed.scanFrom, hscan]
      | ok x =>
        obtain ⟨lexeme, n⟩ := x
        cases lexeme with
        | blank =>
          have hread := ih n (pos + byteLength (c :: cs.take n))
            (newline || (c :: cs.take n).contains '\n')
          simpa only [readFrom, Lexed.scanFrom, hscan] using hread
        | token kind =>
          right
          refine ⟨⟨kind, String.ofList (c :: cs.take n), pos, newline⟩,
            ⟨pos + byteLength (c :: cs.take n), cs.drop n, false⟩, ?_, rfl, ?_⟩
          · simp only [readFrom, hscan]
          · simp only [Lexed.scanFrom, hscan]
            rw [Lexed.scanFrom_skip]

theorem answers_done {l : Lexer} (h : l.done = true) (calls : Nat) :
    l.answers calls = List.replicate calls none := by
  induction calls with
  | zero => rfl
  | succ calls ih =>
    have hnext : l.next = (none, l) := if_pos h
    rw [answers, hnext, ih, List.replicate_succ]

/-- One call after the other, the lexer of whole texts is what a reader hands out. -/
theorem handsOut_scanFrom {l : Lexer} (h : l.done = false) :
    l.HandsOut (Lexed.scanFrom 0 l.position false l.rest).tokens
      (Lexed.scanFrom 0 l.position false l.rest).last := by
  intro calls
  induction calls generalizing l with
  | zero => rfl
  | succ calls ih =>
    have hnext : l.next = (some (readFrom 0 l.position false l.rest).1,
        (readFrom 0 l.position false l.rest).2) := if_neg (by simp [h])
    rw [answers, hnext]
    rcases readFrom_cases 0 l.position false l.rest with
      ⟨after, hread, hdone, htokens⟩ | ⟨t, after, hread, hdone, hscan⟩
    · rw [hread, htokens, answers_done hdone]
      simp
    · rw [hread, hscan, ih hdone]
      simp [List.replicate_succ', ← List.append_assoc, List.take_append_of_le_length]

theorem handsOut_ofRange (source : String) (start stop : Nat) :
    (ofRange source start stop).HandsOut (Lexed.ofRange source start stop).tokens
      (Lexed.ofRange source start stop).last :=
  handsOut_scanFrom rfl

end Lexer

/-- Two boundaries cut a source in three. -/
theorem Program.Boundary.split (hstart : Boundary source start) (hstop : Boundary source stop)
    (hle : start ≤ stop) : ∃ pre mid post, source.toList = pre ++ (mid ++ post) ∧
      start = byteLength pre ∧ stop = byteLength pre + byteLength mid := by
  obtain ⟨pre, rest, hsource, rfl⟩ := hstart
  obtain ⟨upto, post, hupto, rfl⟩ := hstop
  rw [hsource] at hupto
  rcases List.append_eq_append_iff.1 hupto with ⟨mid, rfl, rfl⟩ | ⟨mid, rfl, rfl⟩
  · exact ⟨pre, mid, post, hsource, rfl, byteLength_append _ _⟩
  · have hlength := length_le_byteLength mid
    rw [byteLength_append] at hle
    obtain rfl : mid = [] := List.length_eq_zero_iff.1 (by omega)
    exact ⟨upto ++ [], [], rest, by simpa using hsource, rfl, by simp [byteLength]⟩

namespace Scans

variable {pre cs rest post : List Char} {after : Bool}

theorem gapAt {newline : Bool} (hsource : source.toList = pre ++ (cs ++ (rest ++ post)))
    (h : Scans (byteLength pre) false cs rest [] newline) :
    GapAt source (byteLength pre) (byteLength pre + byteLength cs)
      (byteLength pre + byteLength cs + byteLength rest) newline := by
  obtain ⟨hgap, rfl⟩ := h.gap
  have hcs : slice (byteLength pre) (byteLength pre + byteLength cs) source.toList = cs := by
    rw [hsource, slice_append]
  have hrest := slice_append (pre ++ cs) rest post
  rw [byteLength_append, List.append_assoc, ← hsource] at hrest
  refine ⟨Nat.le_add_right _ _, ⟨pre ++ cs, rest ++ post, ?_, ?_⟩, ?_, ?_⟩
  · rw [hsource, List.append_assoc]
  · rw [byteLength_append]
  · rwa [hcs, hrest]
  · rw [hcs, Bool.false_or, List.contains_iff_mem]

/-- A run and what comes after it tile the text that they read. -/
theorem tiles (hsource : source.toList = pre ++ (cs ++ (rest ++ post)))
    (h : Scans (byteLength pre) false cs rest ts after)
    (hstops : Lexed.Stops (byteLength pre + byteLength cs) after rest last) :
    Tiles source (byteLength pre + byteLength cs + byteLength rest) (byteLength pre) ts last := by
  induction ts generalizing pre cs with
  | nil =>
    have hgap := h.gapAt hsource
    cases hstops with
    | done => exact .done hgap
    | @error c cs misfit hc hs =>
      refine .error hgap ⟨Nat.le_add_right _ _, ?_⟩
      have := byteLength_take_le misfit.length (c :: cs)
      dsimp only
      omega
  | cons t ts ih =>
    have hread := (h.mem (List.mem_cons_self ..)).2
    obtain ⟨gap, cs, rfl, hgap, hstart, hscans⟩ := h.first
    have htext := byteLength_toList t.text
    have hpre : byteLength (pre ++ gap) = t.start := by rw [hstart, byteLength_append]
    have hstop : byteLength (pre ++ (gap ++ t.text.toList)) = t.stop := by
      rw [← List.append_assoc, byteLength_append, hpre, htext, Token.stop]
    have hback : source.toList = (pre ++ (gap ++ t.text.toList)) ++ (cs ++ (rest ++ post)) := by
      rw [hsource]
      simp only [List.append_assoc]
    have hlimit : byteLength pre + byteLength (gap ++ (t.text.toList ++ cs)) + byteLength rest =
        t.stop + byteLength cs + byteLength rest := by
      simp only [← hstop, byteLength_append, Nat.add_assoc]
    rw [hlimit]
    refine .token ?_ hread.kind ?_ ⟨Nat.lt_add_of_pos_right hread.size, ?_⟩ ?_
    · have hfront : source.toList = pre ++ (gap ++ ((t.text.toList ++ (cs ++ rest)) ++ post)) := by
        rw [hsource]
        simp only [List.append_assoc]
      have hgapAt := hgap.gapAt hfront
      rw [byteLength_append, byteLength_append, ← hstart, htext, ← Nat.add_assoc,
        ← Nat.add_assoc] at hgapAt
      exact hgapAt
    · have hsplit : source.toList = (pre ++ gap) ++ (t.text.toList ++ (cs ++ (rest ++ post))) := by
        rw [hback]
        simp only [List.append_assoc]
      exact Token.text_of_split hsplit hpre.symm
    · omega
    · have htiles := ih hback (by rwa [hstop]) (by
        rw [hstop]
        rw [← List.append_assoc, byteLength_append] at hstops
        rwa [← Nat.add_assoc, ← byteLength_append, hstop] at hstops)
      rwa [hstop] at htiles

end Scans

namespace Tiles

theorem inside (h : Tiles source stop start ts last) :
    ∀ t ∈ ts, start ≤ t.start ∧ t.start < t.stop ∧ t.stop ≤ stop := by
  induction h with
  | done => simp
  | error => simp
  | token hgap _ _ hspan _ ih =>
    intro u hu
    rcases List.mem_cons.1 hu with rfl | hu
    · exact ⟨hgap.le, hspan⟩
    · obtain ⟨hstart, hrest⟩ := ih u hu
      have := hgap.le
      exact ⟨by omega, hrest⟩

theorem sorted (h : Tiles source stop start ts last) : Token.Sorted ts := by
  induction h with
  | done => exact .nil
  | error => exact .nil
  | token _ _ _ _ h ih => exact .cons (fun u hu => (h.inside u hu).1) ih

/-- Every token takes a byte of its range. -/
theorem length_le (h : Tiles source stop start ts last) : ts.length ≤ stop - start := by
  induction h with
  | done => simp
  | error => simp
  | token hgap _ _ hspan _ ih =>
    have := hgap.le
    rw [List.length_cons]
    omega

end Tiles

/-- A reader of any range that begins and ends between characters hands out tokens and then one end
token or error, within one more call than the range has bytes, and these tile the range. -/
theorem Lexer.ofRange_tiles (hstart : Boundary source start) (hstop : Boundary source stop)
    (hle : start ≤ stop) :
    ∃ ts last, (Lexer.ofRange source start stop).HandsOut ts last ∧
      ts.length + 1 ≤ stop - start + 1 ∧
      Token.Sorted ts ∧ (∀ t ∈ ts, start ≤ t.start ∧ t.start < t.stop ∧ t.stop ≤ stop) ∧
      Tiles source stop start ts last := by
  obtain ⟨pre, mid, post, hsource, rfl, rfl⟩ := hstart.split hstop hle
  have hmid : slice (byteLength pre) (byteLength pre + byteLength mid) source.toList = mid := by
    rw [hsource, slice_append]
  have hhands := Lexer.handsOut_ofRange source (byteLength pre) (byteLength pre + byteLength mid)
  rw [Lexed.ofRange, hmid] at hhands
  obtain ⟨cs, rest, after, rfl, hscans, hstops⟩ := @scans_upto_error mid.length
    (byteLength pre) false mid (Nat.le_refl _)
  rw [List.append_assoc] at hsource
  have htiles := hscans.tiles hsource hstops
  rw [Nat.add_assoc, ← byteLength_append] at htiles
  exact ⟨_, _, hhands, Nat.add_le_add_right htiles.length_le 1, htiles.sorted, htiles.inside,
    htiles⟩

/-- A range with a comment on either side of its one token. -/
theorem Lexer.ofRange_tiles_comments :
    Boundary "é /*é*/ab //" 2 ∧ Boundary "é /*é*/ab //" 14 ∧
      (Lexer.ofRange "é /*é*/ab //" 2 14).answers 3 =
        [some (.ok ⟨.ident, "ab", 9, false⟩), some (.ok (Token.endAt 14 false)), none] ∧
      ∃ ts last, (Lexer.ofRange "é /*é*/ab //" 2 14).HandsOut ts last ∧
        ts.length + 1 ≤ 14 - 2 + 1 ∧
        Token.Sorted ts ∧ (∀ t ∈ ts, 2 ≤ t.start ∧ t.start < t.stop ∧ t.stop ≤ 14) ∧
        Tiles "é /*é*/ab //" 14 2 ts last := by
  have hstart : Boundary "é /*é*/ab //" 2 :=
    ⟨['é'], [' ', '/', '*', 'é', '*', '/', 'a', 'b', ' ', '/', '/'], by decide, by decide⟩
  have hstop : Boundary "é /*é*/ab //" 14 :=
    ⟨['é', ' ', '/', '*', 'é', '*', '/', 'a', 'b', ' ', '/', '/'], [], by decide, by decide⟩
  exact ⟨hstart, hstop, by rfl, Lexer.ofRange_tiles hstart hstop (by decide)⟩

end Script
