import Script.Proofs.Lexing.Local

/-!
Runs of the lexer over part of a text, with the text that follows it in view. Such runs are put
together, taken apart, moved, and cut to the bytes from the first of their tokens to the last.
-/
namespace Script

open Chars Lexeme

/-- From position `pos`, with `newline` telling whether a line break was seen, the part `cs` of a
text is read as the tokens `ts` where `rest` follows it, and `after` tells whether a line break was
seen since the last of them. -/
inductive Scans : Nat → Bool → List Char → List Char → List Token → Bool → Prop
  | done {pos : Nat} {newline : Bool} {rest : List Char} : Scans pos newline [] rest [] newline
  | blank {pos : Nat} {newline after : Bool} {c : Char} {cs rest : List Char} {ts : List Token}
      (hc : isBlank c = true)
      (h : Scans (pos + c.utf8Size) (newline || c == '\n') cs rest ts after) :
      Scans pos newline (c :: cs) rest ts after
  | comment {pos : Nat} {newline after : Bool} {c : Char} {w cs rest : List Char}
      {ts : List Token} (hc : isBlank c = false)
      (hs : scan holeLength c (w ++ (cs ++ rest)) = .ok (.blank, w.length))
      (h : Scans (pos + byteLength (c :: w)) (newline || (c :: w).contains '\n') cs rest ts after) :
      Scans pos newline (c :: (w ++ cs)) rest ts after
  | token {pos : Nat} {newline after : Bool} {c : Char} {w cs rest : List Char} {k : TokenKind}
      {ts : List Token} (hs : scan holeLength c (w ++ (cs ++ rest)) = .ok (.token k, w.length))
      (h : Scans (pos + byteLength (c :: w)) false cs rest ts after) :
      Scans pos newline (c :: (w ++ cs)) rest (⟨k, String.ofList (c :: w), pos, newline⟩ :: ts)
        after

/-- Tokens of which the first stands after a line break or not. -/
def Token.refront (b : Bool) : List Token → List Token
  | [] => []
  | t :: ts => { t with newlineBefore := b } :: ts

namespace Lexed

theorem scanFrom_skip (skip pos : Nat) (newline : Bool) (cs : List Char) :
    scanFrom skip pos newline cs = scanFrom 0 pos newline (cs.drop skip) := by
  induction cs generalizing skip with
  | nil => simp [scanFrom]
  | cons c cs ih =>
    cases skip with
    | zero => rfl
    | succ k => exact ih k

theorem scanFrom_lexeme {pos : Nat} {newline : Bool} {c : Char} {w r : List Char}
    (h : scan holeLength c (w ++ r) = .ok (.blank, w.length)) :
    scanFrom 0 pos newline (c :: (w ++ r)) =
      scanFrom 0 (pos + byteLength (c :: w)) (newline || (c :: w).contains '\n') r := by
  rw [scanFrom]
  simp only [h, List.take_left]
  rw [scanFrom_skip, List.drop_left]

theorem scanFrom_token {pos : Nat} {newline : Bool} {c : Char} {w r : List Char} {k : TokenKind}
    (h : scan holeLength c (w ++ r) = .ok (.token k, w.length)) :
    scanFrom 0 pos newline (c :: (w ++ r)) =
      ⟨⟨k, String.ofList (c :: w), pos, newline⟩ ::
          (scanFrom 0 (pos + byteLength (c :: w)) false r).tokens,
        (scanFrom 0 (pos + byteLength (c :: w)) false r).last⟩ := by
  rw [scanFrom]
  simp only [h, List.take_left]
  rw [scanFrom_skip, List.drop_left]

/-- Blanks are read together, up to the first character that is none. -/
theorem scanFrom_blanks {pos : Nat} {newline : Bool} {ws r : List Char}
    (hw : ∀ c ∈ ws, isBlank c = true) (hr : ∀ c ∈ r.head?, isBlank c = false) :
    scanFrom 0 pos newline (ws ++ r) =
      scanFrom 0 (pos + byteLength ws) (newline || ws.contains '\n') r := by
  cases ws with
  | nil => simp [byteLength]
  | cons c ws =>
    have hc : isBlank c = true := hw c (by simp)
    have htake : (ws ++ r).takeWhile isBlank = ws :=
      takeWhile_append_iff.2 ⟨fun d hd => hw d (by simp [hd]), hr⟩
    refine scanFrom_lexeme ?_
    rw [scan_eq, if_pos hc, htake]

theorem scanFrom_blank {pos : Nat} {newline : Bool} {c : Char} {cs : List Char}
    (hc : isBlank c = true) :
    scanFrom 0 pos newline (c :: cs) =
      scanFrom 0 (pos + c.utf8Size) (newline || c == '\n') cs := by
  have hsplit := List.takeWhile_append_dropWhile (p := isBlank) (l := cs)
  obtain ⟨hw, hr⟩ := takeWhile_append_iff.1 (congrArg (List.takeWhile isBlank) hsplit)
  generalize cs.takeWhile isBlank = ws at hsplit hw hr
  generalize cs.dropWhile isBlank = r at hsplit hw hr
  subst hsplit
  have hall : ∀ d ∈ c :: ws, isBlank d = true := by
    intro d hd
    rcases List.mem_cons.1 hd with rfl | hd
    · exact hc
    · exact hw d hd
  rw [← List.cons_append, scanFrom_blanks hall hr, scanFrom_blanks hw hr]
  simp only [byteLength, List.contains_cons, Nat.add_assoc, Bool.or_assoc]
  rw [Bool.beq_comm]

end Lexed

namespace Scans

variable {pos : Nat} {newline after : Bool} {cs r r' : List Char} {ts : List Token}

theorem finish (h : Scans pos newline cs r ts after) :
    Lexed.scanFrom 0 pos newline (cs ++ r) =
      ⟨ts ++ (Lexed.scanFrom 0 (pos + byteLength cs) after r).tokens,
        (Lexed.scanFrom 0 (pos + byteLength cs) after r).last⟩ := by
  induction h with
  | done => rfl
  | blank hc h ih =>
    rw [List.cons_append, Lexed.scanFrom_blank hc, ih]
    simp only [byteLength, Nat.add_assoc]
  | comment hc hs h ih =>
    rw [List.cons_append, List.append_assoc, Lexed.scanFrom_lexeme hs, ih]
    simp only [byteLength, byteLength_append, Nat.add_assoc]
  | token hs h ih =>
    rw [List.cons_append, List.append_assoc, Lexed.scanFrom_token hs, ih]
    simp only [byteLength, byteLength_append, Nat.add_assoc, List.cons_append]

end Scans

theorem scans_of_scanFrom (n : Nat) {pos : Nat} {newline : Bool} {cs : List Char} {ts : List Token}
    {last : Token} (hn : cs.length ≤ n)
    (h : Lexed.scanFrom 0 pos newline cs = ⟨ts, .ok last⟩) :
    ∃ after, Scans pos newline cs [] ts after ∧
      last = Token.endAt (pos + byteLength cs) after := by
  induction n generalizing pos newline cs ts with
  | zero =>
    obtain rfl := List.length_eq_zero_iff.1 (Nat.le_zero.1 hn)
    cases h
    exact ⟨newline, .done, rfl⟩
  | succ n ih =>
    cases cs with
    | nil =>
      cases h
      exact ⟨newline, .done, rfl⟩
    | cons c cs =>
      rw [List.length_cons] at hn
      cases hc : isBlank c with
      | true =>
        rw [Lexed.scanFrom_blank hc] at h
        obtain ⟨after, hscans, hlast⟩ := ih (by omega) h
        exact ⟨after, .blank hc hscans, by rw [hlast, byteLength, Nat.add_assoc]⟩
      | false =>
        cases hscan : scan holeLength c cs with
        | error misfit =>
          rw [Lexed.scanFrom] at h
          simp [hscan] at h
        | ok x =>
          obtain ⟨lexeme, k⟩ := x
          have hk := scan_le hscan
          have hlen : (cs.drop k).length ≤ n := by
            rw [List.length_drop]
            omega
          have hsplit : scan holeLength c (cs.take k ++ (cs.drop k ++ [])) =
              .ok (lexeme, (cs.take k).length) := by
            rw [List.append_nil, List.take_append_drop, List.length_take_of_le hk, hscan]
          have hbytes : byteLength (c :: cs) =
              byteLength (c :: cs.take k) + byteLength (cs.drop k) := by
            rw [← byteLength_append, List.cons_append, List.take_append_drop]
          have hcs : c :: cs = c :: (cs.take k ++ cs.drop k) := by rw [List.take_append_drop]
          rw [hbytes, hcs]
          rw [hcs] at h
          rw [List.append_nil] at hsplit
          cases lexeme with
          | blank =>
            rw [Lexed.scanFrom_lexeme hsplit] at h
            obtain ⟨after, hscans, hlast⟩ := ih hlen h
            exact ⟨after, .comment hc (by rwa [List.append_nil]) hscans,
              by rw [hlast, Nat.add_assoc]⟩
          | token kind =>
            rw [Lexed.scanFrom_token hsplit] at h
            obtain ⟨rfl, hlast⟩ := Lexed.mk.inj h
            obtain ⟨after, hscans, hlast⟩ := @ih _ _ _ _ hlen (by rw [← hlast])
            exact ⟨after, .token (by rwa [List.append_nil]) hscans,
              by rw [hlast, Nat.add_assoc]⟩

/-- A text is lexed to the end exactly if a run over all of it reads its tokens. -/
theorem lexed_iff {base : Nat} {text : String} {ts : List Token} {last : Token} :
    Lexed.ofString base text = ⟨ts, .ok last⟩ ↔
      ∃ after, Scans base false text.toList [] ts after ∧
        last = Token.endAt (base + text.utf8ByteSize) after := by
  rw [← byteLength_toList]
  constructor
  · exact scans_of_scanFrom _ (Nat.le_refl _)
  · rintro ⟨after, h, rfl⟩
    have hfinish := h.finish
    rw [List.append_nil] at hfinish
    simpa [Lexed.scanFrom, Lexed.ofString, Lexed.ofChars] using hfinish

namespace Scans

variable {pos : Nat} {newline after : Bool} {cs r r' : List Char} {t : Token} {ts us : List Token}

/-- A part of a text is read again before another text if the last lexeme of it is. -/
theorem reread (h : Scans pos newline cs r ts after)
    (hlast : ∀ c w lexeme, isBlank c = false →
      scan holeLength c (w ++ r) = .ok (lexeme, w.length) →
        scan holeLength c (w ++ r') = .ok (lexeme, w.length)) :
    Scans pos newline cs r' ts after := by
  have hread : ∀ c w cs lexeme, isBlank c = false →
      scan holeLength c (w ++ (cs ++ r)) = .ok (lexeme, w.length) →
        scan holeLength c (w ++ (cs ++ r')) = .ok (lexeme, w.length) := by
    intro c w cs lexeme hc hs
    cases cs with
    | nil => exact hlast c w lexeme hc hs
    | cons e cs =>
      exact scan_local hs (holeLength_local _) (Nat.le_refl _) (milder_same rfl) (.inl hc)
  clear hlast
  induction h with
  | done => exact .done
  | blank hc _ ih => exact .blank hc (ih hread)
  | comment hc hs _ ih => exact .comment hc (hread _ _ _ _ hc hs) (ih hread)
  | token hs _ ih =>
    exact .token (hread _ _ _ _ (reads_of_scan hs).not_blank hs) (ih hread)

/-- A part of a text is read again where something milder follows it. -/
theorem milder (h : Scans pos newline cs r ts after) (hr : Milder r r') :
    Scans pos newline cs r' ts after :=
  h.reread fun _ _ _ hc hs =>
    scan_local hs (holeLength_local _) (Nat.le_refl _) hr (.inl hc)

theorem append {cs' : List Char} {middle : Bool} (h : Scans pos newline cs (cs' ++ r) ts middle)
    (h' : Scans (pos + byteLength cs) middle cs' r us after) :
    Scans pos newline (cs ++ cs') r (ts ++ us) after := by
  generalize hx : cs' ++ r = x at h
  induction h with
  | done => simpa [byteLength] using h'
  | blank hc h ih =>
    refine .blank hc (ih ?_ hx)
    rwa [Nat.add_assoc]
  | comment hc hs h ih =>
    subst hx
    rw [List.cons_append, List.append_assoc]
    refine .comment hc (by rwa [List.append_assoc]) (ih ?_ rfl)
    rwa [Nat.add_assoc, ← byteLength_append]
  | token hs h ih =>
    subst hx
    rw [List.cons_append, List.append_assoc]
    refine .token (by rwa [List.append_assoc]) (ih ?_ rfl)
    rwa [Nat.add_assoc, ← byteLength_append]

theorem start_le (h : Scans pos newline cs r ts after) : ∀ t ∈ ts, pos ≤ t.start := by
  induction h with
  | done => simp
  | blank hc _ ih =>
    intro t ht
    have := ih t ht
    omega
  | comment hc _ _ ih =>
    intro t ht
    have := ih t ht
    omega
  | token hs _ ih =>
    intro t ht
    rcases List.mem_cons.1 ht with rfl | ht
    · exact Nat.le_refl _
    · have := ih t ht
      omega

/-- Where a line break was seen before, the first token begins a line. -/
theorem after_break (h : Scans pos newline cs r ts after) :
    ∃ after', Scans pos true cs r (Token.refront true ts) after' := by
  induction h with
  | done => exact ⟨true, .done⟩
  | blank hc _ ih =>
    obtain ⟨after', ih⟩ := ih
    exact ⟨after', .blank hc ih⟩
  | comment hc hs _ ih =>
    obtain ⟨after', ih⟩ := ih
    exact ⟨after', .comment hc hs ih⟩
  | token hs h _ => exact ⟨_, .token hs h⟩

/-- Whether a line break was seen is only told by the first token. -/
theorem restart (h : Scans pos newline cs r (t :: ts) after) (ht : t.start = pos) (b : Bool) :
    Scans pos b cs r (Token.refront b (t :: ts)) after := by
  cases h with
  | @blank _ _ _ c _ _ _ hc h =>
    have := h.start_le t (by simp)
    have := c.utf8Size_pos
    omega
  | @comment _ _ _ c _ _ _ _ hc hs h =>
    have := h.start_le t (by simp)
    have := c.utf8Size_pos
    simp only [byteLength] at *
    omega
  | token hs h => exact .token hs h

theorem tokens_nil (h : Scans pos newline [] r ts after) : ts = [] := by
  cases h
  rfl

/-- A part of a text that ends with a token is read again where a character follows that goes on
with no token. -/
theorem calmer (h : Scans pos newline cs r ts after)
    (hlast : ts.getLast?.map Token.stop = some (pos + byteLength cs)) (hr : Calmer r r') :
    Scans pos newline cs r' ts after := by
  induction h with
  | done => cases hlast
  | blank hc _ ih => exact .blank hc (ih (by rw [hlast, byteLength, Nat.add_assoc]) hr)
  | @comment _ _ _ c w cs _ ts hc hs h ih =>
    rw [← List.cons_append, byteLength_append, ← Nat.add_assoc] at hlast
    -- A comment is not the end of such a part, so it is followed by the same text.
    obtain ⟨d, cs, rfl⟩ : ∃ d ds, cs = d :: ds := by
      refine List.exists_cons_of_ne_nil fun hcs => ?_
      subst hcs
      rw [h.tokens_nil] at hlast
      cases hlast
    refine .comment hc ?_ (ih hlast hr)
    exact scan_local hs (holeLength_local _) (Nat.le_refl _) (milder_same rfl) (.inl hc)
  | @token pos _ _ c w cs _ k ts hs h ih =>
    refine .token (scan_of_reads ((reads_of_scan hs).local rfl (holeLength_local _) (Nat.le_refl _)
      (hr.append cs))) ?_
    rw [← List.cons_append, byteLength_append, ← Nat.add_assoc] at hlast
    cases ts with
    | cons t ts => exact ih (by rwa [List.getLast?_cons_cons] at hlast) hr
    | nil =>
      rw [List.getLast?_singleton, Option.map_some, Token.stop, utf8ByteSize_ofList] at hlast
      have hstop := Option.some.inj hlast
      obtain rfl : cs = [] := by
        cases cs with
        | nil => rfl
        | cons d cs =>
          have := d.utf8Size_pos
          simp only [byteLength] at hstop
          omega
      cases h
      exact .done

/-- A run is taken apart behind one of its tokens, from where the rest is read as from a start. -/
theorem split (h : Scans pos newline cs r (ts ++ us) after) (hts : ts ≠ []) :
    ∃ cs' rest, cs = cs' ++ rest ∧ Scans pos newline cs' (rest ++ r) ts false ∧
      ts.getLast?.map Token.stop = some (pos + byteLength cs') ∧
      Scans (pos + byteLength cs') false rest r us after := by
  generalize hvs : ts ++ us = vs at h
  induction h generalizing ts with
  | done => exact absurd (List.append_eq_nil_iff.1 hvs).1 hts
  | blank hc _ ih =>
    obtain ⟨cs', rest, rfl, h, hlast, hrest⟩ := ih hts hvs
    rw [Nat.add_assoc] at hlast hrest
    exact ⟨_, rest, rfl, .blank hc h, hlast, hrest⟩
  | comment hc hs _ ih =>
    obtain ⟨cs', rest, rfl, h, hlast, hrest⟩ := ih hts hvs
    rw [List.append_assoc] at hs
    rw [Nat.add_assoc, ← byteLength_append] at hlast hrest
    exact ⟨_, rest, (by rw [List.cons_append, List.append_assoc]), .comment hc hs h, hlast, hrest⟩
  | @token pos newline after c w cs r k ts' hs h ih =>
    obtain ⟨t, ts, rfl⟩ := List.exists_cons_of_ne_nil hts
    obtain ⟨rfl, htail⟩ := List.cons.inj hvs
    cases ts with
    | nil =>
      obtain rfl : us = ts' := htail
      have hw : c :: (w ++ []) = c :: w := by rw [List.append_nil]
      refine ⟨c :: (w ++ []), cs, by simp, .token hs .done, ?_, hw ▸ h⟩
      rw [hw, List.getLast?_singleton, Option.map_some, Token.stop, utf8ByteSize_ofList]
    | cons u ts =>
      obtain ⟨cs', rest, rfl, h, hlast, hrest⟩ := @ih (u :: ts) (by simp) htail
      rw [List.append_assoc] at hs
      rw [Nat.add_assoc, ← byteLength_append] at hlast hrest
      refine ⟨_, rest, (by rw [List.cons_append, List.append_assoc]), .token hs h, ?_, hrest⟩
      rw [List.getLast?_cons_cons, hlast, List.cons_append]

/-- The last token ends where the next part of the text begins. -/
theorem upto (h : Scans pos newline cs r (ts ++ us) after) (hts : ts ≠ []) :
    ∃ cs' rest, cs = cs' ++ rest ∧ Scans pos newline cs' (rest ++ r) ts false ∧
      ts.getLast?.map Token.stop = some (pos + byteLength cs') := by
  obtain ⟨cs', rest, hcs, h, hlast, -⟩ := h.split hts
  exact ⟨cs', rest, hcs, h, hlast⟩

/-- After its first token a run goes on where that token ends. -/
theorem drop_token (h : Scans pos newline cs r (t :: ts) after) :
    ∃ cs' rest, cs = cs' ++ rest ∧ Scans (pos + byteLength cs') false rest r ts after ∧
      t.stop = pos + byteLength cs' := by
  generalize hvs : t :: ts = vs at h
  induction h with
  | done => cases hvs
  | @blank _ _ _ c _ _ _ hc h ih =>
    obtain ⟨cs', rest, rfl, h, hstop⟩ := ih hvs
    refine ⟨c :: cs', rest, rfl, ?_, by rw [hstop, byteLength, Nat.add_assoc]⟩
    rwa [byteLength, ← Nat.add_assoc]
  | @comment _ _ _ c w _ _ _ hc hs h ih =>
    obtain ⟨cs', rest, rfl, h, hstop⟩ := ih hvs
    refine ⟨c :: (w ++ cs'), rest, by simp, ?_, ?_⟩
    · rwa [← List.cons_append, byteLength_append, ← Nat.add_assoc]
    · rw [hstop, ← List.cons_append, byteLength_append, Nat.add_assoc]
  | @token _ _ _ c w _ _ _ _ hs h _ =>
    obtain ⟨rfl, rfl⟩ := List.cons.inj hvs
    exact ⟨c :: w, _, rfl, h, by rw [Token.stop, utf8ByteSize_ofList]⟩

/-- A run may begin where its first token does. -/
theorem from_token (h : Scans pos newline cs r (t :: ts) after) :
    ∃ cs' rest newline', cs = cs' ++ rest ∧
      Scans (pos + byteLength cs') newline' rest r (t :: ts) after ∧
      t.start = pos + byteLength cs' := by
  generalize hvs : t :: ts = vs at h ⊢
  induction h with
  | done => cases hvs
  | @blank _ _ _ c _ _ _ hc h ih =>
    obtain ⟨cs', rest, newline', rfl, h, hstart⟩ := ih hvs
    refine ⟨c :: cs', rest, newline', rfl, ?_, by rw [hstart, byteLength, Nat.add_assoc]⟩
    rwa [byteLength, ← Nat.add_assoc]
  | @comment _ _ _ c w _ _ _ hc hs h ih =>
    obtain ⟨cs', rest, newline', rfl, h, hstart⟩ := ih hvs
    refine ⟨c :: (w ++ cs'), rest, newline', by simp, ?_, ?_⟩
    · rwa [← List.cons_append, byteLength_append, ← Nat.add_assoc]
    · rw [hstart, ← List.cons_append, byteLength_append, Nat.add_assoc]
  | token hs h _ =>
    obtain ⟨rfl, rfl⟩ := List.cons.inj hvs
    exact ⟨[], _, _, rfl, .token hs h, rfl⟩

end Scans

end Script
