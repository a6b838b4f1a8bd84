import Script.Proofs.Lexing.NumeralForms
import Script.Proofs.Tiles

/-!
What a reader makes of a numeral. Behind blanks and comments it takes the longest text that looks
like a number, and either that text is a number of one of the four kinds or the reader stops with
an error over just that text.
-/
namespace Script

open Chars

variable {pos : Nat} {newline : Bool} {cs : List Char}

namespace Numeral

theorem begins_ne_nil (h : begins cs = true) : cs ≠ [] := by
  rintro rfl
  cases h

theorem begins_head (h : begins cs = true) : ∀ c ∈ cs.head?, c ≠ '_' := by
  rintro c hc rfl
  obtain ⟨cs, rfl⟩ := List.head?_eq_some_iff.1 hc
  rw [begins_of_ne (by decide)] at h
  cases h

theorem run_length_pos (h : begins cs = true) : 0 < (run cs).length := by
  obtain ⟨c, cs, rfl⟩ := List.exists_cons_of_ne_nil (begins_ne_nil h)
  exact List.length_pos_iff.2 (run_ne_nil h)

/-- The kind of a run, by the patterns. -/
theorem classify_run_iff {kind : NumberKind} (h : begins cs = true) :
    classify (run cs) = some kind ↔ run cs ∈ form kind :=
  classify_iff (begins_head (begins_of_mem (run_longest h).mem List.prefix_rfl))

end Numeral

namespace Lexed

open Numeral

/-- A numeral that has one of the forms is the next token. -/
theorem scanFrom_number {kind : NumberKind} (hb : begins cs = true)
    (hk : classify (run cs) = some kind) :
    scanFrom 0 pos newline cs =
      ⟨⟨.number kind, String.ofList (run cs), pos, newline⟩ ::
          (scanFrom 0 (pos + byteLength (run cs)) false (cs.drop (run cs).length)).tokens,
        (scanFrom 0 (pos + byteLength (run cs)) false (cs.drop (run cs).length)).last⟩ := by
  obtain ⟨r, hr⟩ := run_isPrefix cs
  obtain ⟨c, w, hw⟩ := List.exists_cons_of_ne_nil (List.length_pos_iff.1 (run_length_pos hb))
  obtain rfl : cs = c :: (w ++ r) := by rw [← hr, hw, List.cons_append]
  have hscan := Lexeme.scan_of_reads (.number (m := holeLength) hb hk)
  rw [hw] at hscan
  have hdrop : (c :: (w ++ r)).drop (c :: w).length = r := by
    rw [← List.cons_append, List.drop_left]
  rw [scanFrom_token hscan, hw, hdrop]

/-- Any other numeral is an error. -/
theorem scanFrom_malformed (hb : begins cs = true) (hk : classify (run cs) = none) :
    scanFrom 0 pos newline cs =
      ⟨[], .error ⟨.malformedNumber, pos, pos + byteLength (run cs)⟩⟩ := by
  have htake := List.prefix_iff_eq_take.1 (run_isPrefix cs)
  obtain ⟨c, cs, rfl⟩ := List.exists_cons_of_ne_nil (begins_ne_nil hb)
  have hblank : isBlank c = false := by
    by_contra hblank
    rw [(Lexeme.blank_begins (Bool.eq_true_of_not_eq_false hblank)).1] at hb
    cases hb
  have hscan : Lexeme.scan holeLength c cs =
      .error ⟨.malformedNumber, (run (c :: cs)).length⟩ := by
    rw [Lexeme.scan_eq, if_neg (by simp [hblank]), if_pos hb]
    simp only [hk]
  simp only [scanFrom, hscan, ← htake]

/-- A gap takes its bytes and tells of its line breaks. -/
theorem scanFrom_gap {gap : List Char} (h : Gap cs gap) :
    scanFrom 0 pos newline (gap ++ cs) =
      scanFrom 0 (pos + byteLength gap) (newline || gap.contains '\n') cs :=
  (Scans.of_gap h pos newline).finish

end Lexed

namespace Lexer

/-- A call hands out the first of what the lexer of whole texts reads. -/
theorem next_first {l : Lexer} (h : l.done = false) :
    l.next.1 = (Lexed.scanFrom 0 l.position false l.rest).steps.head? ∧
      (l.next.2.done = true ↔ (Lexed.scanFrom 0 l.position false l.rest).tokens = []) := by
  have hnext : l.next = (some (readFrom 0 l.position false l.rest).1,
      (readFrom 0 l.position false l.rest).2) := if_neg (by simp [h])
  rw [hnext]
  rcases readFrom_cases 0 l.position false l.rest with
    ⟨after, hread, hdone, htokens⟩ | ⟨t, after, hread, hdone, hscan⟩
  · simp [hread, hdone, htokens, Lexed.steps]
  · simp [hread, hdone, hscan, Lexed.steps]

/-- Where something that looks like a number comes next, behind blanks and comments, a reader in any
state takes the longest such text. It hands out a number of a kind exactly if the text has the
pattern of that kind, and otherwise it stops with an error over the text. -/
theorem next_number {l : Lexer} {gap cs w : List Char} (hopen : l.done = false)
    (hrest : l.rest = gap ++ cs) (hgap : Gap cs gap) (hw : w ∈ Numeral.loose) (hfront : w <+: cs) :
    ∃ r start, Numeral.LongestIn Numeral.loose cs r ∧ start = l.position + byteLength gap ∧
      (∀ kind, r ∈ Numeral.form kind ↔
        l.next.1 = some (.ok ⟨.number kind, String.ofList r, start, gap.contains '\n'⟩)) ∧
      ((∀ kind, r ∉ Numeral.form kind) ↔
        l.next.1 = some (.error ⟨.malformedNumber, start, start + byteLength r⟩) ∧
          l.next.2.done = true) := by
  have hb := Numeral.begins_of_mem hw hfront
  refine ⟨Numeral.run cs, _, Numeral.run_longest hb, rfl, ?_⟩
  have hfirst := next_first hopen
  rw [hrest, Lexed.scanFrom_gap hgap, Bool.false_or] at hfirst
  obtain ⟨hanswer, hdone⟩ := hfirst
  simp only [← Numeral.classify_run_iff hb]
  cases hk : Numeral.classify (Numeral.run cs) with
  | some kind =>
    rw [Lexed.scanFrom_number hb hk] at hanswer
    have hok : l.next.1 = some (.ok ⟨.number kind, String.ofList (Numeral.run cs),
        l.position + byteLength gap, gap.contains '\n'⟩) := hanswer
    rw [hok]
    refine ⟨fun other => ?_, ?_⟩
    · simp
    · simp
  | none =>
    rw [Lexed.scanFrom_malformed hb hk] at hanswer hdone
    have herror : l.next.1 = some (.error ⟨.malformedNumber, l.position + byteLength gap,
        l.position + byteLength gap + byteLength (Numeral.run cs)⟩) := hanswer
    rw [herror]
    refine ⟨fun other => ?_, ?_⟩
    · simp
    · simp [hdone]

/-- An underscore and a point are both read, although no number has them both. -/
theorem next_number_malformed :
    (ofString "/*7*/1_0.5e+2;").done = false ∧
      (ofString "/*7*/1_0.5e+2;").rest = "/*7*/".toList ++ "1_0.5e+2;".toList ∧
      Gap "1_0.5e+2;".toList "/*7*/".toList ∧ "1_0.5e+2".toList ∈ Numeral.loose ∧
      "1_0.5e+2".toList <+: "1_0.5e+2;".toList ∧
      ∃ r start, Numeral.LongestIn Numeral.loose "1_0.5e+2;".toList r ∧
        start = (ofString "/*7*/1_0.5e+2;").position + byteLength "/*7*/".toList ∧
        (∀ kind, r ∈ Numeral.form kind ↔ (ofString "/*7*/1_0.5e+2;").next.1 =
          some (.ok ⟨.number kind, String.ofList r, start, "/*7*/".toList.contains '\n'⟩)) ∧
        ((∀ kind, r ∉ Numeral.form kind) ↔
          (ofString "/*7*/1_0.5e+2;").next.1 =
              some (.error ⟨.malformedNumber, start, start + byteLength r⟩) ∧
            (ofString "/*7*/1_0.5e+2;").next.2.done = true) := by
  have hgap : Gap "1_0.5e+2;".toList "/*7*/".toList := .block (w := ['7']) (by decide) .nil
  have hrun : Numeral.run "1_0.5e+2;".toList = "1_0.5e+2".toList := by decide
  have hlongest := @Numeral.run_longest "1_0.5e+2;".toList (by decide)
  rw [hrun] at hlongest
  have hopen : (ofString "/*7*/1_0.5e+2;").done = false := rfl
  have hrest : (ofString "/*7*/1_0.5e+2;").rest = "/*7*/".toList ++ "1_0.5e+2;".toList := by
    decide +kernel
  exact ⟨hopen, hrest, hgap, hlongest.mem, hlongest.front,
    next_number hopen hrest hgap hlongest.mem hlongest.front⟩

end Lexer

end Script
