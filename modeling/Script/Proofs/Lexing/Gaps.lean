import Script.Proofs.Lexing.Broken

/-!
What stands between the tokens of a text. Wherever no token is read there are only blanks and
comments, and a token tells of the line breaks among them.
-/
namespace Script

open Chars Lexeme

/-- A text of blanks and comments. A line comment goes on to the end of its line or of the whole
text, of which `rest` is what follows the gap, and a block comment ends with its first closer. -/
inductive Gap (rest : List Char) : List Char → Prop
  | nil : Gap rest []
  | blank {c : Char} {cs : List Char} (hc : isBlank c = true) (h : Gap rest cs) :
      Gap rest (c :: cs)
  | line {w cs : List Char} (hw : '\n' ∉ w) (hstop : ∀ d ∈ (cs ++ rest).head?, d = '\n')
      (h : Gap rest cs) : Gap rest ('/' :: '/' :: (w ++ cs))
  | block {w cs : List Char} (hw : ¬ ['*', '/'] <:+: w ++ ['*']) (h : Gap rest cs) :
      Gap rest ('/' :: '*' :: (w ++ '*' :: '/' :: cs))

/-- The closer that `commentLength` finds is the first one. -/
theorem Lexeme.commentLength_first {w r : List Char} (h : commentLength (w ++ r) = some w.length) :
    ∃ v, w = v ++ ['*', '/'] ∧ ¬ ['*', '/'] <:+: v ++ ['*'] := by
  generalize hcs : w ++ r = cs at h
  fun_induction commentLength cs generalizing w with
  | case1 => cases h
  | case2 cs =>
    have hw : ['*', '/'] = w := eq_of_isPrefix ⟨cs, hcs.symm⟩ (Option.some.inj h)
    exact ⟨[], hw.symm, fun hin => absurd hin.length_le (by simp)⟩
  | case3 c cs hnot ih =>
    obtain ⟨n, hn, hlength⟩ := Option.map_eq_some_iff.1 h
    obtain ⟨d, w, rfl⟩ := List.exists_cons_of_length_eq_add_one hlength.symm
    obtain ⟨rfl, hrest⟩ := List.cons.inj hcs
    have hn' : n = w.length := Nat.succ.inj hlength
    obtain ⟨v, rfl, hfirst⟩ := ih hrest (by rw [hn, hn'])
    refine ⟨d :: v, rfl, fun hin => ?_⟩
    rcases List.infix_cons_iff.1 hin with hfront | hin
    · obtain ⟨rfl, hslash⟩ := List.cons_prefix_cons.1 hfront
      cases v with
      | nil => simp at hslash
      | cons e v =>
        obtain ⟨rfl, -⟩ := List.cons_prefix_cons.1 hslash
        exact hnot _ rfl hrest.symm
    · exact hfirst hin

/-- The first closer is the one that `commentLength` finds. -/
theorem Lexeme.commentLength_closed {w : List Char} (h : ¬ ['*', '/'] <:+: w ++ ['*'])
    (r : List Char) : commentLength (w ++ '*' :: '/' :: r) = some (w.length + 2) := by
  induction w with
  | nil => rfl
  | cons c w ih =>
    rw [List.cons_append] at h
    have hrest := ih fun hin => h (List.infix_cons hin)
    rw [List.cons_append, commentLength.eq_3, hrest, List.length_cons, Option.map_some,
      Nat.add_right_comm]
    rintro cs rfl hcs
    refine h (List.IsPrefix.isInfix ?_)
    cases w with
    | nil => cases (List.cons.inj hcs).1
    | cons d w =>
      obtain ⟨rfl, -⟩ := List.cons.inj hcs
      exact ⟨w ++ ['*'], rfl⟩

/-- The two shapes of a comment, its first character apart. -/
theorem Lexeme.Comments.shape {w r : List Char} (h : Comments (w ++ r) w.length) :
    (∃ v, w = '/' :: v ∧ '\n' ∉ v ∧ ∀ d ∈ r.head?, d = '\n') ∨
      ∃ v, w = '*' :: (v ++ ['*', '/']) ∧ ¬ ['*', '/'] <:+: v ++ ['*'] := by
  generalize hcs : w ++ r = cs at h
  generalize hn : w.length = n at h
  cases w with
  | nil => cases h <;> simp only [List.length_nil] at hn <;> omega
  | cons d w =>
    rw [List.length_cons, Nat.add_comm] at hn
    cases h with
    | line cs =>
      obtain ⟨rfl, rfl⟩ := List.cons.inj hcs
      have hline := eq_of_isPrefix (List.takeWhile_prefix _) (Nat.add_left_cancel hn).symm
      obtain ⟨hw, hstop⟩ := takeWhile_append_iff.1 hline
      exact .inl ⟨w, rfl, fun hin => absurd (hw _ hin) (by simp), by simpa using hstop⟩
    | block hlength =>
      obtain ⟨rfl, rfl⟩ := List.cons.inj hcs
      rw [← Nat.add_left_cancel hn] at hlength
      obtain ⟨v, rfl, hfirst⟩ := commentLength_first hlength
      exact .inr ⟨v, rfl, hfirst⟩

namespace Scans

variable {pos : Nat} {newline after : Bool} {cs r : List Char} {t : Token} {ts : List Token}

/-- A run without a token reads a gap. -/
theorem gap (h : Scans pos newline cs r [] after) :
    Gap r cs ∧ after = (newline || cs.contains '\n') := by
  generalize hts : ([] : List Token) = ts at h
  induction h with
  | done => exact ⟨.nil, by simp⟩
  | @blank _ newline _ c cs _ _ hc _ ih =>
    obtain ⟨hgap, rfl⟩ := ih hts
    refine ⟨.blank hc hgap, ?_⟩
    rw [List.contains_cons, Bool.or_assoc, Bool.beq_comm]
  | @comment _ newline _ c w cs _ _ hc hs _ ih =>
    obtain ⟨hgap, rfl⟩ := ih hts
    refine ⟨?_, ?_⟩
    · obtain ⟨rfl, hcomment⟩ := (scan_blank_iff hc).1 hs
      rcases hcomment.shape with ⟨v, rfl, hv, hstop⟩ | ⟨v, rfl, hv⟩
      · exact .line hv hstop hgap
      · have hblock := Gap.block hv hgap
        rwa [List.cons_append, List.append_assoc]
    · rw [← List.cons_append, List.contains_append, Bool.or_assoc]
  | token => cases hts

/-- A comment in front of what is read without a token. -/
theorem comment_gap {w : List Char} (hw : Comments (w ++ (cs ++ r)) w.length)
    (h : ∀ pos newline, Scans pos newline cs r [] (newline || cs.contains '\n')) (pos : Nat)
    (newline : Bool) :
    Scans pos newline ('/' :: (w ++ cs)) r [] (newline || ('/' :: (w ++ cs)).contains '\n') := by
  have hscans := Scans.comment (by decide)
    ((scan_blank_iff (m := holeLength) (by decide)).2 ⟨rfl, hw⟩)
    (h (pos + byteLength ('/' :: w)) (newline || ('/' :: w).contains '\n'))
  rwa [Bool.or_assoc, ← List.contains_append] at hscans

/-- A gap is read without a token. -/
theorem of_gap (h : Gap r cs) (pos : Nat) (newline : Bool) :
    Scans pos newline cs r [] (newline || cs.contains '\n') := by
  induction h generalizing pos newline with
  | nil => simpa using Scans.done
  | @blank c cs hc _ ih =>
    refine .blank hc ?_
    rw [List.contains_cons, ← Bool.or_assoc, Bool.beq_comm]
    exact ih _ _
  | @line w cs hw hstop _ ih =>
    have hline : (w ++ (cs ++ r)).takeWhile (· != '\n') = w := by
      refine takeWhile_append_iff.2 ⟨fun d hd => ?_, fun d hd => by simp [hstop d hd]⟩
      exact bne_iff_ne.2 fun h => hw (h ▸ hd)
    have hcomment := Comments.line (w ++ (cs ++ r))
    rw [hline, Nat.add_comm, ← List.length_cons (a := '/')] at hcomment
    exact @comment_gap _ _ ('/' :: w) hcomment ih pos newline
  | @block w cs hw _ ih =>
    have hcomment := Comments.block (commentLength_closed hw (cs ++ r))
    have hsplit : '*' :: (w ++ '*' :: '/' :: (cs ++ r)) =
        '*' :: (w ++ ['*', '/']) ++ (cs ++ r) := by simp
    have hlength : 1 + (w.length + 2) = ('*' :: (w ++ ['*', '/'])).length := by
      simp [Nat.add_comm 1]
    rw [hsplit, hlength] at hcomment
    simpa using comment_gap hcomment ih pos newline

/-- Up to its first token a run reads a gap, and after that token it goes on as from a start. -/
theorem first (h : Scans pos newline cs r (t :: ts) after) :
    ∃ gap rest, cs = gap ++ (t.text.toList ++ rest) ∧
      Scans pos newline gap (t.text.toList ++ (rest ++ r)) [] t.newlineBefore ∧
      t.start = pos + byteLength gap ∧ Scans t.stop false rest r ts after := by
  generalize hvs : t :: ts = vs at h
  induction h with
  | done => cases hvs
  | @blank _ _ _ c _ _ _ hc _ ih =>
    obtain ⟨gap, rest, rfl, hgap, hstart, hrest⟩ := ih hvs
    exact ⟨c :: gap, rest, rfl, .blank hc hgap, by rw [hstart, byteLength, Nat.add_assoc], hrest⟩
  | @comment _ _ _ c w _ _ _ hc hs _ ih =>
    obtain ⟨gap, rest, rfl, hgap, hstart, hrest⟩ := ih hvs
    refine ⟨c :: (w ++ gap), rest, by simp, .comment hc (by simpa using hs) hgap, ?_, hrest⟩
    rw [hstart, ← List.cons_append, byteLength_append, Nat.add_assoc]
  | @token _ _ _ c w cs _ _ _ hs h _ =>
    obtain ⟨rfl, rfl⟩ := List.cons.inj hvs
    refine ⟨[], cs, by simp, .done, by rw [byteLength, Nat.add_zero], ?_⟩
    rwa [Token.stop, utf8ByteSize_ofList]

end Scans

end Script
