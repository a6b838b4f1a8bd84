import Mathlib.Data.List.TakeDrop
import Mathlib.Data.List.TakeWhile
import Script.Proofs.Lexing.Tokens

/-!
A text that has the form of a number is read as a number to its end: the run that looks like a
number at all takes whatever one of the forms has.
-/
namespace Script.Numeral

open Chars

theorem digit_isDigitPart {c : Char} (h : isDigit c = true) : isDigitPart c = true := by
  rw [isDigitPart, h, Bool.true_or]

theorem digitPart_isIdentPart {c : Char} (h : isDigitPart c = true) : isIdentPart c = true := by
  simp only [isDigitPart, Bool.or_eq_true, beq_iff_eq] at h
  simp only [isIdentPart, isIdentStart, Bool.or_eq_true, beq_iff_eq]
  rcases h with h | h
  · exact .inr h
  · exact .inl (.inl (.inr h))

theorem hexPart_isIdentPart {c : Char} (h : isHexPart c = true) : isIdentPart c = true := by
  rw [isHexPart, Bool.or_assoc, Bool.or_eq_true] at h
  rcases h with h | h
  · exact digitPart_isIdentPart h
  · have hletter : isLetter c = true := by
      simp only [isLetter, le_iff_toNat, Bool.or_eq_true, Bool.and_eq_true, decide_eq_true_eq,
        Char.reduceToNat] at h ⊢
      omega
    rw [isIdentPart, isIdentStart, hletter]
    rfl

theorem binPart_isIdentPart {c : Char} (h : isBinPart c = true) : isIdentPart c = true := by
  simp only [isBinPart, Bool.or_eq_true, beq_iff_eq] at h
  rcases h with (rfl | rfl) | rfl <;> decide

theorem tail_eq {cs : List Char} (h : ∀ c ∈ cs, isIdentPart c = true) : tail cs = cs :=
  List.takeWhile_eq_self_iff.2 h

/-- An exponent is read to its end. -/
theorem exponent_eq {e : Char} {cs : List Char} (he : (e == 'e' || e == 'E') = true)
    (h : isExponentTail cs = true) : exponent (e :: cs) = e :: cs := by
  have hdigits : ∀ ds : List Char, (ds != [] && ds.all isDigit) = true → tail ds = ds := by
    intro ds hds
    rw [Bool.and_eq_true, List.all_eq_true] at hds
    exact tail_eq fun c hc => digitPart_isIdentPart (digit_isDigitPart (hds.2 c hc))
  simp only [exponent, he, if_true]
  unfold isExponentTail at h
  split at h
  · simp [hdigits _ h]
  · simp [hdigits _ h]
  · rename_i hplus hminus
    cases cs with
    | nil => simp at h
    | cons s ds =>
      have hsign : (s == '+' || s == '-') = false := by
        have h1 : s ≠ '+' := fun hs => hplus ds (by rw [hs])
        have h2 : s ≠ '-' := fun hs => hminus ds (by rw [hs])
        simp [h1, h2]
      simp only [hsign, Bool.false_eq_true, if_false]
      exact congrArg (e :: ·) (hdigits _ h)

/-- The parts of a text before and from a sign on. -/
theorem span_split {p : Char → Bool} {cs a b : List Char} (h : cs.span p = (a, b)) :
    cs = a ++ b ∧ (∀ c ∈ a, p c = true) ∧ ∀ c ∈ b.head?, p c = false := by
  rw [List.span_eq_takeWhile_dropWhile] at h
  obtain ⟨rfl, rfl⟩ := Prod.mk.inj h
  have hall := List.takeWhile_append_dropWhile (p := p) (l := cs)
  exact ⟨hall.symm, takeWhile_append_iff.1 (congrArg (List.takeWhile p) hall)⟩

theorem plainWhole_digits {cs : List Char} (h : isPlainWhole cs = true) :
    ∀ c ∈ cs, isDigitPart c = true := by
  rw [isPlainWhole, Bool.or_eq_true, beq_iff_eq, Bool.and_eq_true, List.all_eq_true] at h
  rcases h with rfl | ⟨-, h⟩
  · exact List.forall_mem_singleton.2 (by decide)
  · exact fun c hc => digit_isDigitPart (h c hc)

theorem fraction_digits {ds rest : List Char} (hd : ∀ c ∈ ds, isDigitPart c = true)
    (hr : ∀ c ∈ rest.head?, isDigitPart c = false) (he : exponent rest = rest) :
    fraction (ds ++ rest) = ds ++ rest := by
  have htake : (ds ++ rest).takeWhile isDigitPart = ds := takeWhile_append_iff.2 ⟨hd, hr⟩
  have hall := List.takeWhile_append_dropWhile (p := isDigitPart) (l := ds ++ rest)
  rw [htake] at hall
  rw [fraction, htake, List.append_cancel_left hall, he]

/-- A mantissa and the exponent after it, if there is one, are read to their end. -/
theorem run_mantissa {hasExponent : Bool} {cs rest : List Char}
    (h : isMantissa hasExponent cs = true) (hr : ∀ c ∈ rest.head?, isDigitPart c = false ∧ c ≠ '.')
    (he : exponent rest = rest) : run (cs ++ rest) = cs ++ rest := by
  have hdigits : ∀ ds : List Char, ds.all isDigit = true → ∀ c ∈ ds, isDigitPart c = true :=
    fun ds hds c hc => digit_isDigitPart (List.all_eq_true.1 hds c hc)
  unfold isMantissa at h
  split at h
  · rename_i d frac hspan
    obtain ⟨rfl, -, hpoint⟩ := span_split hspan
    obtain rfl : d = '.' := by simpa using hpoint
    rw [Bool.and_eq_true] at h
    rw [List.append_assoc, List.cons_append, run_point (by simp),
      fraction_digits (hdigits frac h.2) (fun c hc => (hr c hc).1) he]
  · rename_i whole d frac _ hspan
    obtain ⟨rfl, -, hpoint⟩ := span_split hspan
    obtain rfl : d = '.' := by simpa using hpoint
    rw [Bool.and_eq_true] at h
    rw [List.append_assoc, List.cons_append, run_point (plainWhole_digits h.1),
      fraction_digits (hdigits frac h.2) (fun c hc => (hr c hc).1) he]
  · rename_i whole hspan
    obtain ⟨rfl, -, -⟩ := span_split hspan
    rw [Bool.and_eq_true] at h
    rw [List.append_nil, run_plain (plainWhole_digits h.2) hr, he]

theorem run_float {cs : List Char} (h : isFloat cs = true) : run cs = cs := by
  unfold isFloat at h
  split at h
  · rename_i mantissa e exp hspan
    obtain ⟨rfl, -, hsign⟩ := span_split hspan
    have he : (e == 'e' || e == 'E') = true := by
      have hnot := hsign e rfl
      by_cases he : e = 'e'
      · simp [he]
      · simpa [he] using hnot
    rw [Bool.and_eq_true] at h
    refine run_mantissa h.2 ?_ (exponent_eq he h.1)
    intro c hc
    obtain rfl := Option.some.inj hc
    simp only [Bool.or_eq_true, beq_iff_eq] at he
    rcases he with rfl | rfl <;> decide
  · rename_i mantissa hspan
    obtain ⟨rfl, -, -⟩ := span_split hspan
    rw [List.append_nil]
    have hrun := @run_mantissa _ _ [] h (by simp) rfl
    rwa [List.append_nil] at hrun

/-- A text that has one of the forms is taken as a whole. -/
theorem run_of_classify {cs : List Char} {kind : NumberKind} (h : classify cs = some kind) :
    run cs = cs := by
  have hzero : ∀ x ds, x ≠ '.' → isDigitPart x = false → x ≠ 'e' → x ≠ 'E' →
      (∀ c ∈ x :: ds, isIdentPart c = true) → run ('0' :: x :: ds) = '0' :: x :: ds := by
    intro x ds hpoint hdigit he hE hparts
    have hrun := @run_plain ['0'] (x :: ds) (List.forall_mem_singleton.2 (by decide))
      (by rintro c ⟨⟩; exact ⟨hdigit, hpoint⟩)
    have hexp : exponent (x :: ds) = x :: ds := by
      simp [exponent, he, hE, tail_eq hparts]
    rwa [hexp] at hrun
  unfold classify at h
  split at h
  · rename_i ds
    split at h
    · rename_i hds
      rw [Bool.and_eq_true, List.all_eq_true] at hds
      exact hzero 'b' ds (by decide) (by decide) (by decide) (by decide)
        (List.forall_mem_cons.2 ⟨by decide, fun c hc => binPart_isIdentPart (hds.2 c hc)⟩)
    · cases h
  · rename_i ds
    split at h
    · rename_i hds
      rw [Bool.and_eq_true, List.all_eq_true] at hds
      exact hzero 'x' ds (by decide) (by decide) (by decide) (by decide)
        (List.forall_mem_cons.2 ⟨by decide, fun c hc => hexPart_isIdentPart (hds.2 c hc)⟩)
    · cases h
  · split at h
    · split at h
      · exact run_float ‹_›
      · cases h
    · split at h
      · rename_i hdigits
        rw [Bool.and_eq_true, List.all_eq_true] at hdigits
        have hrun := @run_plain _ [] hdigits.2 (by simp)
        rw [List.append_nil] at hrun
        rw [hrun]
        exact List.append_nil cs
      · cases h

end Script.Numeral

namespace Script

theorem Word.readable_number {kind : NumberKind} {raw : String}
    (hb : Numeral.begins raw.toList = true) (hk : Numeral.classify raw.toList = some kind) :
    Word.Readable ⟨.number kind, raw⟩ := by
  have hrun := Numeral.run_of_classify hk
  generalize hcs : raw.toList = cs at hb hk hrun
  cases cs with
  | nil => cases hb
  | cons c cs =>
    refine ⟨c, cs, hcs, ?_⟩
    rw [← hrun] at hk
    have hscan := Lexeme.scan_of_reads (.number (m := holeLength) hb hk)
    rwa [hrun] at hscan

end Script
