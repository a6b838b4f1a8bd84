import Script.Proofs.Lexing.Chunks
import Script.Proofs.Lexing.Gaps
import Script.Token.Brackets

/-!
The text of a hole on its own. It is measured lexeme by lexeme up to the brace that closes it, so it
is read as tokens up to there, and since no comment goes on over that brace it is read in the same
way before any other bracket.
-/
namespace Script

open Chars Lexeme

/-- A comment that another character than a line feed follows has a closer of its own. -/
theorem Lexeme.Comments.closed {w r : List Char} {d : Char}
    (h : Comments (w ++ d :: r) w.length) (hd : d ≠ '\n') (r' : List Char) :
    Comments (w ++ r') w.length := by
  rcases h.shape with ⟨v, -, -, hstop⟩ | ⟨v, rfl, hfirst⟩
  · exact absurd (hstop d rfl) hd
  · have hblock := Comments.block (commentLength_closed hfirst r')
    have hlength : 1 + (v.length + 2) = ('*' :: (v ++ ['*', '/'])).length := by
      simp [Nat.add_comm 1]
    rw [hlength] at hblock
    simpa using hblock

/-- Where no line feed follows, a run ends with no open comment, so that it is read again before any
calm character. -/
theorem Scans.closed {pos : Nat} {newline after : Bool} {d : Char} {cs r r' : List Char}
    {ts : List Token} (h : Scans pos newline cs (d :: r) ts after) (hd : d ≠ '\n')
    (hr : Calmer (d :: r) r') : Scans pos newline cs r' ts after := by
  refine h.reread fun c w lexeme hc hs => ?_
  cases lexeme with
  | blank =>
    obtain ⟨hslash, hcomment⟩ := (scan_blank_iff hc).1 hs
    exact (scan_blank_iff hc).2 ⟨hslash, hcomment.closed hd r'⟩
  | token k =>
    have hread := (reads_of_scan hs).local rfl (holeLength_local _) (Nat.le_refl _) hr
    exact scan_of_reads hread

theorem Lexeme.scan_blank_all {m : HoleMeasure} {c : Char} {w r : List Char} {lexeme : Lexeme}
    (hc : isBlank c = true) (h : scan m c (w ++ r) = .ok (lexeme, w.length)) :
    lexeme = .blank ∧ ∀ d ∈ c :: w, isBlank d = true := by
  rw [scan_eq, if_pos hc] at h
  obtain ⟨hlexeme, hlength⟩ := Prod.mk.inj (Except.ok.inj h)
  have hw := eq_of_isPrefix (List.takeWhile_prefix _) hlength
  exact ⟨hlexeme.symm, List.forall_mem_cons.2 ⟨hc, (takeWhile_append_iff.1 hw).1⟩⟩

theorem Lexeme.braces_other {k : TokenKind} (hopen : k ≠ .openBrace) (hclose : k ≠ .closeBrace)
    (braces : Nat) : (Lexeme.token k).braces braces = some braces := by
  cases k <;> first | rfl | contradiction

/-- A token that leaves `k` braces open, in front of tokens that close these. -/
theorem Token.ClosesBraces.lexeme {t : Token} {ts : List Token} {braces k : Nat}
    (h : ClosesBraces k ts) (hk : (Lexeme.token t.kind).braces braces = some k) :
    ClosesBraces braces (t :: ts) := by
  refine h.cons ?_
  by_cases hopen : t.kind = .openBrace
  · rw [hopen] at hk
    obtain rfl := Option.some.inj hk
    simp [hopen]
  by_cases hclose : t.kind = .closeBrace
  · rw [hclose] at hk
    cases braces with
    | zero => cases hk
    | succ braces =>
      obtain rfl := Option.some.inj hk
      simp [hclose]
  · rw [Lexeme.braces_other hopen hclose] at hk
    obtain rfl := Option.some.inj hk
    simp [hopen, hclose]

/-- One lexeme before what is read after it. -/
theorem Scans.lexeme {pos : Nat} {newline : Bool} {c : Char} {w cs r : List Char}
    {lexeme : Lexeme} {braces k : Nat} (hk : lexeme.braces braces = some k)
    (hs : scan holeLength c (w ++ (cs ++ r)) = .ok (lexeme, w.length))
    (h : ∀ newline, ∃ ts after, Scans (pos + byteLength (c :: w)) newline cs r ts after ∧
      Token.ClosesBraces k ts) :
    ∃ ts after, Scans pos newline (c :: (w ++ cs)) r ts after ∧ Token.ClosesBraces braces ts := by
  cases lexeme with
  | token kind =>
    obtain ⟨ts, after, hscans, hbraces⟩ := h false
    exact ⟨_, after, .token hs hscans, hbraces.lexeme hk⟩
  | blank =>
    obtain ⟨ts, after, hscans, hbraces⟩ := h (newline || (c :: w).contains '\n')
    obtain rfl := Option.some.inj hk
    refine ⟨ts, after, ?_, hbraces⟩
    cases hc : isBlank c with
    | true => exact @Scans.blanks _ _ _ (c :: w) _ _ _ (scan_blank_all hc hs).2 hscans
    | false => exact .comment hc hs hscans

/-- What is measured as a hole is read as tokens up to the brace that closes it, and these tokens
close the braces that are open, and their own. -/
theorem holeLengthWithin_scans {bound braces n : Nat} {cs : List Char}
    (h : holeLengthWithin bound braces cs = .ok n) :
    ∃ w r, cs = w ++ '}' :: r ∧ n = w.length + 1 ∧ ∀ pos newline, ∃ ts after,
      Scans pos newline w ('}' :: r) ts after ∧ Token.ClosesBraces braces ts := by
  induction bound generalizing braces n cs with
  | zero => cases cs <;> cases h
  | succ bound ih =>
    cases cs with
    | nil => cases h
    | cons c cs =>
      rw [holeLengthWithin_succ] at h
      split at h
      · cases h
      rename_i lexeme k hscan
      split at h
      · rename_i hclose
        obtain rfl := Except.ok.inj h
        obtain ⟨rfl, rfl⟩ : lexeme = .token .closeBrace ∧ braces = 0 := by
          unfold Lexeme.braces at hclose
          split at hclose <;> first | exact ⟨rfl, rfl⟩ | cases hclose
        obtain ⟨rfl, rfl⟩ := scan_closeBrace hscan
        exact ⟨[], cs, rfl, rfl, fun _ _ => ⟨[], _, .done, .nil⟩⟩
      · rename_i hopen
        obtain ⟨n, hrest, rfl⟩ := map_eq_ok.1 h
        obtain ⟨w, r, hdrop, rfl, hscans⟩ := ih hrest
        have hk := scan_le hscan
        obtain ⟨v, rfl⟩ : ∃ v, cs = v ++ (w ++ '}' :: r) :=
          ⟨cs.take k, by rw [← hdrop, List.take_append_drop]⟩
        obtain rfl : k = v.length := by
          have hlength := congrArg List.length hdrop
          simp only [List.length_drop, List.length_append] at hlength hk
          omega
        -- The measure of inner holes had fewer steps, which were enough.
        have hm : LocalTo v.length (holeLengthWithin bound 0) holeLength := by
          intro cs n hn _ r
          obtain ⟨⟨-, hle⟩, hlocal⟩ := holeLengthWithin_local hn
          refine hlocal _ ?_ r
          rw [List.length_append, List.length_take_of_le hle]
          omega
        have hblank : isBlank c = false ∨ ∀ d ∈ (w ++ '}' :: r).head?, isBlank d = false := by
          cases hc : isBlank c with
          | false => exact .inl rfl
          | true => exact .inr (scan_blank_stops hc hscan)
        have hscan' := scan_local hscan hm (Nat.le_refl _) (milder_same rfl) hblank
        refine ⟨c :: (v ++ w), r, by simp, by simp; omega, fun pos newline => ?_⟩
        exact Scans.lexeme hopen hscan' fun newline => hscans _ newline

end Script
