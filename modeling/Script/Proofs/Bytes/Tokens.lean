import Script.Proofs.Bytes.Lexemes
import Script.Proofs.Lexing.Scans

/-!
Texts lexed by bytes. The tokens are those that are read by characters, and every slice of the
source that is taken on the way is there.
-/
namespace Script.Bytes

open Chars (byteLength byteLength_append)
open Lexeme (scan)

variable {μ : Measure} {m : HoleMeasure} {pre cs : List Char} {c : Char} {k bound : Nat}

theorem pos_lt (pre : List Char) (c : Char) (cs : List Char) :
    byteLength pre < byteLength (pre ++ c :: cs) := by
  have := c.utf8Size_pos
  rw [byteLength_append, byteLength]
  omega

/-- A lexeme that is read in a hole either closes it, or the hole goes on with as many open braces
as there are after the lexeme. -/
theorem holeFrom_step {lexeme : Lexeme} {n braces : Nat}
    (h : Bytes.lexeme μ (pre ++ c :: cs) (byteLength pre) c cs = .ok (.ok (lexeme, n))) :
    holeFrom μ (pre ++ c :: cs) (braces + 1) (byteLength pre) =
      match lexeme.braces braces with
      | none => .ok (.ok (byteLength pre + (c.utf8Size + n)))
      | some k => holeFrom μ (pre ++ c :: cs) (k + 1) (byteLength pre + (c.utf8Size + n)) := by
  rw [holeFrom, if_pos (pos_lt pre c cs), sliceFrom_append rfl]
  simp only [bind, Except.bind, h]
  cases lexeme with
  | blank => rfl
  | token kind => cases kind <;> first | rfl | (cases braces <;> rfl)

theorem holeFrom_ok
    (hμ : ∀ b bound, bound ≤ k → bound ≤ b + 1 → Measures μ (holeLengthWithin b 0) bound)
    (b braces : Nat) (hb : cs.length ≤ b) (hk : cs.length ≤ k) (pre : List Char) :
    holeFrom μ (pre ++ cs) (braces + 1) (byteLength pre) =
      .ok ((byteLength pre + ·) <$> inBytes cs (holeLengthWithin b braces cs)) := by
  induction b generalizing braces cs pre with
  | zero =>
    obtain rfl := List.length_eq_zero_iff.1 (Nat.le_zero.1 hb)
    rw [List.append_nil, holeFrom, if_neg (Nat.lt_irrefl _)]
    rfl
  | succ b ih =>
    cases cs with
    | nil =>
      rw [List.append_nil, holeFrom, if_neg (Nat.lt_irrefl _)]
      rfl
    | cons c cs =>
      rw [List.length_cons] at hb hk
      have hlexeme := @lexeme_ok μ (holeLengthWithin b 0) pre cs c cs.length
        (hμ b _ (by omega) (by omega)) (Nat.le_refl _)
      rw [holeLengthWithin_succ]
      cases hscan : scan (holeLengthWithin b 0) c cs with
      | error misfit =>
        rw [hscan] at hlexeme
        rw [holeFrom, if_pos (pos_lt pre c cs), sliceFrom_append rfl]
        simp only [bind, Except.bind, hlexeme]
        rfl
      | ok x =>
        obtain ⟨lexeme, n⟩ := x
        rw [hscan] at hlexeme
        rw [holeFrom_step hlexeme]
        dsimp only
        cases lexeme.braces braces with
        | none => rfl
        | some open' =>
          have hlen : (cs.drop n).length ≤ cs.length := by
            rw [List.length_drop]
            omega
          have hrest := ih open' (Nat.le_trans hlen (by omega)) (Nat.le_trans hlen (by omega))
            (pre ++ (c :: cs).take (n + 1))
          rw [List.append_assoc, List.take_succ_cons, List.cons_append, List.take_append_drop,
            byteLength_append, byteLength] at hrest
          dsimp only
          rw [hrest, inBytes_add, List.take_succ_cons, List.drop_succ_cons, byteLength_append,
            byteLength]

/-- A hole is measured by bytes, where the bound on its depth is large enough. -/
theorem holeWithin_ok (k b : Nat) (hk : cs.length < k) (hb : cs.length ≤ b) :
    holeWithin k cs = .ok (inBytes cs (holeLengthWithin b 0 cs)) := by
  induction k generalizing b cs with
  | zero => omega
  | succ k ih =>
    have hmeasures : ∀ b bound, bound ≤ k → bound ≤ b + 1 →
        Measures (holeWithin k) (holeLengthWithin b 0) bound :=
      fun b bound hk hb cs hcs => ih b (by omega) (by omega)
    have hfrom := holeFrom_ok hmeasures b 0 hb (by omega) []
    rw [List.nil_append, byteLength, Nat.zero_add] at hfrom
    rw [holeWithin, hfrom]
    cases inBytes cs (holeLengthWithin b 0 cs) with
    | error => rfl
    | ok n => exact congrArg (fun i => Except.ok (Except.ok i)) (Nat.zero_add n)

theorem measures_holeWithin (k : Nat) : Measures (holeWithin k) holeLength k :=
  fun cs hcs => holeWithin_ok k cs.length hcs (Nat.le_refl _)

/-- The part of a source between two tokens, seen from the text that is lexed: it begins where the
last token ended, and goes on to what is read next. -/
structure Gap (left : List Char) (prev : Nat) (newline : Bool) : Prop where
  exists_split : ∃ before gap, left = before ++ gap ∧ prev = byteLength before ∧
    newline = gap.contains '\n'

theorem Gap.slice {left : List Char} {prev stop : Nat} {newline : Bool}
    (h : Gap left prev newline) (hstop : stop = byteLength left) (right : List Char) :
    ∃ gap, Bytes.slice prev stop (left ++ right) = .ok gap ∧ gap.contains '\n' = newline := by
  obtain ⟨before, gap, rfl, rfl, rfl⟩ := h.exists_split
  refine ⟨gap, ?_, rfl⟩
  rw [List.append_assoc]
  exact slice_append rfl (by rw [hstop, byteLength_append])

theorem Gap.blank {left word : List Char} {prev : Nat} {newline : Bool}
    (h : Gap left prev newline) : Gap (left ++ word) prev (newline || word.contains '\n') := by
  obtain ⟨before, gap, rfl, rfl, rfl⟩ := h.exists_split
  exact ⟨before, gap ++ word, by rw [List.append_assoc], rfl, by simp⟩

theorem Gap.token (left : List Char) {prev : Nat} (h : prev = byteLength left) :
    Gap left prev false :=
  ⟨left, [], by simp, h, rfl⟩

section Steps

variable {left right : List Char} {stop prev : Nat} {newline : Bool}

theorem tokensFrom_end (hstop : stop = byteLength (left ++ pre))
    (hgap : Gap (left ++ pre) prev newline) :
    tokensFrom μ (left ++ (pre ++ right)) pre (byteLength left) stop (byteLength pre) prev =
      .ok (Lexed.scanFrom 0 (byteLength (left ++ pre)) newline []) := by
  obtain ⟨gap, hslice, hcontains⟩ := hgap.slice hstop right
  rw [List.append_assoc] at hslice
  rw [tokensFrom, if_neg (Nat.lt_irrefl _), hslice]
  subst hstop
  subst hcontains
  rfl

/-- An error spans the bytes of the characters that it concerns. -/
theorem tokensFrom_error {misfit : Misfit} (source : List Char)
    (hscan : scan holeLength c cs = .error misfit)
    (hlexeme : lexeme μ (pre ++ c :: cs) (byteLength pre) c cs =
      .ok (lexemeInBytes c cs (.error misfit))) :
    tokensFrom μ source (pre ++ c :: cs) (byteLength left) stop (byteLength pre) prev =
      .ok (Lexed.scanFrom 0 (byteLength (left ++ pre)) newline (c :: cs)) := by
  have hspan : ∀ i, span (byteLength pre + byteLength left) (byteLength pre + i + byteLength left) =
      .ok ⟨byteLength (left ++ pre), byteLength (left ++ pre) + i⟩ := by
    intro i
    rw [span_ok (by omega), byteLength_append]
    congr 2 <;> omega
  rw [tokensFrom, if_pos (pos_lt pre c cs), sliceFrom_append rfl]
  simp only [bind, Except.bind, hlexeme, lexemeInBytes, hspan]
  rw [Lexed.scanFrom]
  simp only [hscan]
  rfl

/-- A token spans the bytes of its characters, and its text and the gap before it are slices. -/
theorem tokensFrom_token {kind : TokenKind} {w : List Char} {rest : Lexed}
    (hlexeme : lexeme μ (pre ++ c :: (w ++ cs)) (byteLength pre) c (w ++ cs) =
      .ok (.ok (.token kind, byteLength w)))
    (hgap : Gap (left ++ pre) prev newline)
    (hrest : tokensFrom μ (left ++ (pre ++ c :: (w ++ cs) ++ right)) (pre ++ c :: (w ++ cs))
      (byteLength left) stop (byteLength (pre ++ c :: w)) (byteLength (left ++ (pre ++ c :: w))) =
        .ok rest) :
    tokensFrom μ (left ++ (pre ++ c :: (w ++ cs) ++ right)) (pre ++ c :: (w ++ cs))
      (byteLength left) stop (byteLength pre) prev =
        .ok ⟨⟨kind, String.ofList (c :: w), byteLength (left ++ pre), newline⟩ :: rest.tokens,
          rest.last⟩ := by
  have hpos : byteLength pre + byteLength left = byteLength (left ++ pre) := by
    rw [byteLength_append, Nat.add_comm]
  have hnext : byteLength pre + (c.utf8Size + byteLength w) = byteLength (pre ++ c :: w) := by
    rw [byteLength_append, byteLength]
  have hstop' : byteLength (pre ++ c :: w) + byteLength left =
      byteLength (left ++ (pre ++ c :: w)) := by
    rw [byteLength_append left, Nat.add_comm]
  have hspan : span (byteLength (left ++ pre)) (byteLength (left ++ (pre ++ c :: w))) =
      .ok ⟨byteLength (left ++ pre), byteLength (left ++ (pre ++ c :: w))⟩ :=
    span_ok (by rw [← List.append_assoc, byteLength_append (left ++ pre)]; omega)
  obtain ⟨gap, hslice, rfl⟩ := hgap.slice rfl (c :: (w ++ cs) ++ right)
  have hword : slice (byteLength (left ++ pre)) (byteLength (left ++ (pre ++ c :: w)))
      (left ++ pre ++ (c :: w ++ (cs ++ right))) = .ok (c :: w) :=
    slice_append rfl (by rw [← List.append_assoc, byteLength_append (left ++ pre)])
  have hsource : left ++ (pre ++ c :: (w ++ cs) ++ right) =
      left ++ pre ++ (c :: (w ++ cs) ++ right) := by
    simp
  have hsource' : left ++ (pre ++ c :: (w ++ cs) ++ right) =
      left ++ pre ++ (c :: w ++ (cs ++ right)) := by
    simp
  rw [← hsource] at hslice
  rw [← hsource'] at hword
  rw [tokensFrom, if_pos (pos_lt pre c _), sliceFrom_append rfl]
  simp only [bind, Except.bind, hlexeme, hnext, hpos, hstop', hspan, hslice, hword, hrest]
  rfl

end Steps

theorem tokensFrom_ok {left right pre : List Char} {stop prev : Nat} {newline : Bool} (n : Nat)
    (hn : cs.length ≤ n) (hμ : Measures μ holeLength bound) (hb : cs.length ≤ bound)
    (hstop : stop = byteLength (left ++ (pre ++ cs))) (hgap : Gap (left ++ pre) prev newline) :
    tokensFrom μ (left ++ (pre ++ cs ++ right)) (pre ++ cs) (byteLength left) stop (byteLength pre)
      prev = .ok (Lexed.scanFrom 0 (byteLength (left ++ pre)) newline cs) := by
  induction n generalizing pre cs prev newline with
  | zero =>
    obtain rfl := List.length_eq_zero_iff.1 (Nat.le_zero.1 hn)
    rw [List.append_nil] at hstop ⊢
    exact tokensFrom_end hstop hgap
  | succ n ih =>
    cases cs with
    | nil =>
      rw [List.append_nil] at hstop ⊢
      exact tokensFrom_end hstop hgap
    | cons c cs =>
      rw [List.length_cons] at hn hb
      have hlexeme := @lexeme_ok μ holeLength pre cs c bound hμ (by omega)
      cases hscan : scan holeLength c cs with
      | error misfit =>
        rw [hscan] at hlexeme
        exact tokensFrom_error _ hscan hlexeme
      | ok x =>
        obtain ⟨lexeme, i⟩ := x
        have hi := Lexeme.scan_le hscan
        obtain ⟨w, cs, rfl, rfl⟩ : ∃ w r, cs = w ++ r ∧ i = w.length :=
          ⟨cs.take i, cs.drop i, (List.take_append_drop i cs).symm,
            (List.length_take_of_le hi).symm⟩
        rw [hscan] at hlexeme
        simp only [lexemeInBytes, List.take_left] at hlexeme
        rw [List.length_append] at hn hb
        have hn' : cs.length ≤ n := by omega
        have hb' : cs.length ≤ bound := by omega
        have hsplit : pre ++ c :: (w ++ cs) = pre ++ c :: w ++ cs := by simp
        have hleft : left ++ (pre ++ c :: w) = left ++ pre ++ c :: w := by simp
        have hstop' : stop = byteLength (left ++ (pre ++ c :: w ++ cs)) := by rw [← hsplit, hstop]
        have hbytes : byteLength (left ++ (pre ++ c :: w)) =
            byteLength (left ++ pre) + byteLength (c :: w) := by
          rw [hleft, byteLength_append (left ++ pre)]
        cases lexeme with
        | blank =>
          have hgap' : Gap (left ++ (pre ++ c :: w)) prev (newline || (c :: w).contains '\n') := by
            rw [hleft]
            exact hgap.blank
          have hrest := ih hn' hb' hstop' hgap'
          rw [← hsplit] at hrest
          rw [Lexed.scanFrom_lexeme hscan, ← hbytes, ← hrest, byteLength_append pre, byteLength,
            tokensFrom, if_pos (pos_lt pre c _), sliceFrom_append rfl]
          simp only [bind, Except.bind, hlexeme]
        | token kind =>
          have hrest := ih hn' hb' hstop' (Gap.token (left ++ (pre ++ c :: w)) rfl)
          rw [← hsplit] at hrest
          rw [Lexed.scanFrom_token hscan, ← hbytes, tokensFrom_token hlexeme hgap hrest]

/-- The tokens of a range of a source, where the range begins and ends at boundaries of characters.
-/
theorem lexRange_ok {source : List Char} {left text right : List Char} {start stop : Nat}
    (hsource : source = left ++ (text ++ right)) (hstart : start = byteLength left)
    (hstop : stop = byteLength left + byteLength text) :
    lexRange source start stop = .ok (Lexed.ofChars start text) := by
  subst hsource
  subst hstart
  rw [lexRange, slice_append rfl hstop]
  have htokens := @tokensFrom_ok (holeWithin text.length) text text.length left right [] stop
    (byteLength left) false text.length (Nat.le_refl _) (measures_holeWithin _) (Nat.le_refl _)
    (by rw [List.nil_append, byteLength_append, hstop]) (.token _ (by rw [List.append_nil]))
  rw [List.append_nil] at htokens
  exact htokens

end Script.Bytes
