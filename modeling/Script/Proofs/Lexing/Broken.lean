import Script.Proofs.Extents

/-!
Texts that are lexed up to an error. Whether a text has an error or not, its tokens are those of a
run over the part before it.
-/
namespace Script

open Chars Lexeme

/-- What comes after the tokens of a text: its end, or a lexeme that cannot be read. -/
inductive Lexed.Stops (pos : Nat) (after : Bool) : List Char → Except LexError Token → Prop
  | done : Stops pos after [] (.ok (Token.endAt pos after))
  | error {c : Char} {cs : List Char} {misfit : Misfit} (hc : isBlank c = false)
      (hs : scan holeLength c cs = .error misfit) :
      Stops pos after (c :: cs)
        (.error ⟨misfit.fault, pos, pos + byteLength ((c :: cs).take misfit.length)⟩)

theorem Lexed.stops_last {pos : Nat} {after : Bool} {cs : List Char} {last : Except LexError Token}
    (h : Lexed.Stops pos after cs last) :
    Lexed.scanFrom 0 pos after cs = ⟨[], last⟩ := by
  cases h with
  | done => rfl
  | error hc hs =>
    rw [Lexed.scanFrom]
    simp only [hs]

/-- Every text is read by a run up to its end or its first error. -/
theorem scans_upto_error (n : Nat) {pos : Nat} {newline : Bool} {cs : List Char}
    (hn : cs.length ≤ n) :
    ∃ pre rest after, cs = pre ++ rest ∧
      Scans pos newline pre rest (Lexed.scanFrom 0 pos newline cs).tokens after ∧
      Lexed.Stops (pos + byteLength pre) after rest (Lexed.scanFrom 0 pos newline cs).last := by
  induction n generalizing pos newline cs with
  | zero =>
    obtain rfl := List.length_eq_zero_iff.1 (Nat.le_zero.1 hn)
    exact ⟨[], [], newline, rfl, .done, .done⟩
  | succ n ih =>
    cases cs with
    | nil => exact ⟨[], [], newline, rfl, .done, .done⟩
    | cons c cs =>
      rw [List.length_cons] at hn
      have hlen : cs.length ≤ n := by omega
      cases hc : isBlank c with
      | true =>
        rw [Lexed.scanFrom_blank hc]
        obtain ⟨pre, rest, after, rfl, hscans, hstops⟩ := ih hlen
        rw [Nat.add_assoc] at hstops
        exact ⟨c :: pre, rest, after, rfl, .blank hc hscans, hstops⟩
      | false =>
        cases hscan : scan holeLength c cs with
        | error misfit =>
          have hstops := @Lexed.Stops.error pos newline _ _ _ hc hscan
          rw [Lexed.stops_last hstops]
          exact ⟨[], c :: cs, newline, rfl, .done, hstops⟩
        | ok x =>
          obtain ⟨lexeme, k⟩ := x
          have hk := scan_le hscan
          obtain ⟨w, r, rfl, rfl⟩ : ∃ w r, cs = w ++ r ∧ k = w.length :=
            ⟨cs.take k, cs.drop k, (List.take_append_drop k cs).symm,
              (List.length_take_of_le hk).symm⟩
          rw [List.length_append] at hlen
          have hlen : r.length ≤ n := by omega
          cases lexeme with
          | blank =>
            rw [Lexed.scanFrom_lexeme hscan]
            obtain ⟨pre, rest, after, rfl, hscans, hstops⟩ := ih hlen
            rw [Nat.add_assoc, ← byteLength_append] at hstops
            exact ⟨c :: (w ++ pre), rest, after, by simp, .comment hc hscan hscans, hstops⟩
          | token kind =>
            rw [Lexed.scanFrom_token hscan]
            obtain ⟨pre, rest, after, rfl, hscans, hstops⟩ := ih hlen
            rw [Nat.add_assoc, ← byteLength_append] at hstops
            exact ⟨c :: (w ++ pre), rest, after, by simp, .token hscan hscans, hstops⟩

theorem Lexed.scans (base : Nat) (text : String) :
    ∃ pre rest after, text.toList = pre ++ rest ∧
      Scans base false pre rest (Lexed.ofString base text).tokens after ∧
      Lexed.Stops (base + byteLength pre) after rest (Lexed.ofString base text).last :=
  scans_upto_error _ (Nat.le_refl _)

/-- With its end token a lexed text takes no more bytes than the text. -/
theorem Lexed.weight_le {base : Nat} {text : String} {last : Token}
    (h : (Lexed.ofString base text).last = .ok last) :
    Token.weight ((Lexed.ofString base text).tokens ++ [last]) ≤ text.utf8ByteSize := by
  have hlexed : Lexed.ofString base text = ⟨(Lexed.ofString base text).tokens, .ok last⟩ := by
    rw [← h]
  obtain ⟨after, -, rfl⟩ := lexed_iff.1 hlexed
  have hsize := (Lexed.tokens_size hlexed).1
  simpa [Token.weight, Token.endAt] using hsize

/-- The tokens of a text stand one after the other. -/
theorem Lexed.tokens_sorted (base : Nat) (text : String) :
    Token.Sorted (Lexed.ofString base text).tokens := by
  obtain ⟨pre, rest, after, -, hscans, -⟩ := Lexed.scans base text
  exact hscans.sorted

end Script
