import Script.Proofs.Lexing.Numerals
import Script.Rules.Numerals

/-!
Numerals against their patterns. The run that is taken for a number is the longest text that one of
the loose patterns has, and the kind that a run is given is the one whose strict pattern it has.
-/
namespace Script.Numeral

open Chars
open scoped Computability

variable {p : Char → Bool} {c : Char} {cs w v : List Char} {l : Language Char}

theorem mem_exactly : w ∈ exactly v ↔ w = v := Iff.rfl

theorem mem_optional : w ∈ optional l ↔ w = [] ∨ w ∈ l := by
  rw [optional, Language.mem_add, Language.mem_one]

theorem nil_mem_optional : [] ∈ optional l := mem_optional.2 (.inl rfl)

theorem mem_optional_of_mem (h : w ∈ l) : w ∈ optional l := mem_optional.2 (.inr h)

theorem mem_oneOf_mul : w ∈ oneOf p * l ↔ ∃ c v, w = c :: v ∧ p c = true ∧ v ∈ l := by
  rw [Language.mem_mul]
  constructor
  · rintro ⟨a, ⟨c, rfl, hc⟩, v, hv, rfl⟩
    exact ⟨c, v, rfl, hc, hv⟩
  · rintro ⟨c, v, rfl, hc, hv⟩
    exact ⟨[c], ⟨c, rfl, hc⟩, v, hv, rfl⟩

theorem mem_exactly_mul : w ∈ exactly v * l ↔ ∃ u ∈ l, w = v ++ u := by
  rw [Language.mem_mul]
  constructor
  · rintro ⟨a, rfl, u, hu, rfl⟩
    exact ⟨u, hu, rfl⟩
  · rintro ⟨u, hu, rfl⟩
    exact ⟨v, rfl, u, hu, rfl⟩

/-- Any number of characters out of a class. -/
theorem mem_many : w ∈ (oneOf p)∗ ↔ ∀ c ∈ w, p c = true := by
  rw [Language.mem_kstar]
  constructor
  · rintro ⟨parts, rfl, hparts⟩ c hc
    obtain ⟨part, hpart, hmem⟩ := List.mem_flatten.1 hc
    obtain ⟨d, rfl, hd⟩ := hparts part hpart
    rwa [List.mem_singleton.1 hmem]
  · intro h
    refine ⟨w.map ([·]), by rw [← List.flatMap_def, List.flatMap_singleton'], fun part hpart => ?_⟩
    obtain ⟨c, hc, rfl⟩ := List.mem_map.1 hpart
    exact ⟨c, rfl, h c hc⟩

theorem mem_repeated_oneOf : w ∈ repeated (oneOf p) ↔ w ≠ [] ∧ ∀ c ∈ w, p c = true := by
  rw [repeated, mem_oneOf_mul]
  constructor
  · rintro ⟨c, v, rfl, hc, hv⟩
    exact ⟨by simp, List.forall_mem_cons.2 ⟨hc, mem_many.1 hv⟩⟩
  · rintro ⟨hne, h⟩
    obtain ⟨c, v, rfl⟩ := List.exists_cons_of_ne_nil hne
    obtain ⟨hc, hv⟩ := List.forall_mem_cons.1 h
    exact ⟨c, v, rfl, hc, mem_many.2 hv⟩

/-! How far a numeral goes. -/

theorem exponentSign_isIdentPart (h : isExponentSign c = true) : isIdentPart c = true := by
  simp only [isExponentSign, Bool.or_eq_true, beq_iff_eq] at h
  rcases h with rfl | rfl <;> decide

theorem exponentSign_not_digitPart (h : isExponentSign c = true) : isDigitPart c = false := by
  simp only [isExponentSign, Bool.or_eq_true, beq_iff_eq] at h
  rcases h with rfl | rfl <;> decide

theorem exponent_letters (h : ∀ e ∈ cs.head?, isExponentSign e = false) :
    exponent cs = tail cs := by
  cases cs with
  | nil => rfl
  | cons e cs =>
    have he : (e == 'e' || e == 'E') = false := h e rfl
    simp only [exponent, he, Bool.false_eq_true, if_false]

theorem exponent_signed {e s : Char} (he : isExponentSign e = true) (hs : isSign s = true) :
    exponent (e :: s :: cs) = e :: s :: tail cs := by
  rw [isExponentSign] at he
  rw [isSign] at hs
  simp only [exponent, he, hs, if_true]

theorem exponent_unsigned {e : Char} (he : isExponentSign e = true)
    (hs : ∀ s ∈ cs.head?, isSign s = false) : exponent (e :: cs) = e :: tail cs := by
  rw [isExponentSign] at he
  cases cs with
  | nil => simp only [exponent, he, if_true, tail, List.takeWhile_nil]
  | cons s cs =>
    have hs : (s == '+' || s == '-') = false := hs s rfl
    simp only [exponent, he, hs, if_true, Bool.false_eq_true, if_false]

/-- The three ways in which a text goes on after digits. -/
theorem exponent_cases (cs : List Char) :
    (∀ e ∈ cs.head?, isExponentSign e = false) ∨
      ∃ e ds, cs = e :: ds ∧ isExponentSign e = true ∧
        ((∃ s vs, ds = s :: vs ∧ isSign s = true) ∨ ∀ s ∈ ds.head?, isSign s = false) := by
  cases cs with
  | nil => exact .inl (by simp)
  | cons e ds =>
    by_cases he : isExponentSign e = true
    · refine .inr ⟨e, ds, rfl, he, ?_⟩
      cases ds with
      | nil => exact .inr (by simp)
      | cons s vs =>
        by_cases hs : isSign s = true
        · exact .inl ⟨s, vs, rfl, hs⟩
        · exact .inr (by simpa using hs)
    · exact .inl (by simpa using he)

theorem fraction_digit (hc : isDigitPart c = true) : fraction (c :: cs) = c :: fraction cs := by
  rw [fraction, List.takeWhile_cons_of_pos hc, List.dropWhile_cons_of_pos hc]
  rfl

theorem fraction_at_end (h : ∀ c ∈ cs.head?, isDigitPart c = false) :
    fraction cs = exponent cs := by
  cases cs with
  | nil => rfl
  | cons c cs =>
    have hc : ¬ isDigitPart c = true := by simp [h c rfl]
    rw [fraction, List.takeWhile_cons_of_neg hc, List.dropWhile_cons_of_neg hc]
    rfl

theorem run_digit (hc : isDigitPart c = true) : run (c :: cs) = c :: run cs := by
  obtain ⟨whole, rest, hw, rfl | ⟨rfl, hrest⟩⟩ := run_cases cs
  · rw [run_point hw, ← List.cons_append, run_point (List.forall_mem_cons.2 ⟨hc, hw⟩)]
    rfl
  · rw [run_plain hw hrest, ← List.cons_append,
      run_plain (List.forall_mem_cons.2 ⟨hc, hw⟩) hrest]
    rfl

theorem run_at_point : run ('.' :: cs) = '.' :: fraction cs :=
  @run_point [] cs (by simp)

theorem run_at_end (h : ∀ c ∈ cs.head?, isDigitPart c = false ∧ c ≠ '.') : run cs = exponent cs :=
  @run_plain [] cs (by simp) h

/-- What may follow the digits of a numeral: an exponent, and letters and digits. -/
def afterDigits : Language Char := optional looseExponent * (oneOf isIdentPart)∗

/-- Digits, perhaps with a point among them, and what may follow them. -/
def afterStart : Language Char :=
  (oneOf isDigitPart)∗ * optional (exactly ['.'] * (oneOf isDigitPart)∗) * afterDigits

theorem fromDigit_eq : fromDigit = oneOf isDigit * afterStart := by
  simp only [fromDigit, afterStart, afterDigits, mul_assoc]

theorem fromPoint_eq :
    fromPoint = exactly ['.'] * (oneOf isDigit * ((oneOf isDigitPart)∗ * afterDigits)) := by
  simp only [fromPoint, afterDigits, mul_assoc]

/-- The digits of an exponent are letters and digits, so only its sign is one more thing. -/
theorem mem_afterDigits : w ∈ afterDigits ↔ (∀ c ∈ w, isIdentPart c = true) ∨
    ∃ e s v, w = e :: s :: v ∧ isExponentSign e = true ∧ isSign s = true ∧
      ∀ c ∈ v, isIdentPart c = true := by
  rw [afterDigits, Language.mem_mul]
  constructor
  · rintro ⟨a, ha, v, hv, rfl⟩
    rw [mem_many] at hv
    rcases mem_optional.1 ha with rfl | ha
    · exact .inl hv
    rw [looseExponent, mul_assoc, mem_oneOf_mul] at ha
    obtain ⟨e, b, rfl, he, hb⟩ := ha
    obtain ⟨s, hs, ds, hds, rfl⟩ := Language.mem_mul.1 hb
    have hall : ∀ c ∈ ds ++ v, isIdentPart c = true := List.forall_mem_append.2
      ⟨fun c hc => digitPart_isIdentPart (mem_many.1 hds c hc), hv⟩
    rcases mem_optional.1 hs with rfl | hs
    · exact .inl (List.forall_mem_cons.2 ⟨exponentSign_isIdentPart he, hall⟩)
    · obtain ⟨s, rfl, hsign⟩ := hs
      exact .inr ⟨e, s, ds ++ v, rfl, he, hsign, hall⟩
  · rintro (h | ⟨e, s, v, rfl, he, hs, hv⟩)
    · exact ⟨[], nil_mem_optional, w, mem_many.2 h, rfl⟩
    · refine ⟨[e, s], mem_optional_of_mem ?_, v, mem_many.2 hv, rfl⟩
      rw [looseExponent, mul_assoc, mem_oneOf_mul]
      exact ⟨e, [s], rfl, he, Language.mem_mul.2
        ⟨[s], mem_optional_of_mem ⟨s, rfl, hs⟩, [], Language.nil_mem_kstar _, rfl⟩⟩

theorem tail_front {w cs : List Char} (hw : ∀ c ∈ w, isIdentPart c = true) (h : w <+: cs) :
    w <+: tail cs := by
  obtain ⟨r, rfl⟩ := h
  rw [tail, List.takeWhile_append_of_pos hw]
  exact List.prefix_append _ _

theorem tail_front_exponent (cs : List Char) : tail cs <+: exponent cs := by
  rcases exponent_cases cs with h | ⟨e, ds, rfl, he, ⟨s, vs, rfl, hs⟩ | hs⟩
  · rw [exponent_letters h]
  · have hnot : isIdentPart s = false := by
      simp only [isSign, Bool.or_eq_true, beq_iff_eq] at hs
      rcases hs with rfl | rfl <;> decide
    rw [exponent_signed he hs, tail, List.takeWhile_cons_of_pos (exponentSign_isIdentPart he),
      List.takeWhile_cons_of_neg (by simp [hnot])]
    exact (List.prefix_cons_inj _).2 List.nil_prefix
  · rw [exponent_unsigned he hs, tail, List.takeWhile_cons_of_pos (exponentSign_isIdentPart he)]
    exact List.prefix_rfl

theorem exponent_front (hw : w ∈ afterDigits) (h : w <+: cs) : w <+: exponent cs := by
  rcases mem_afterDigits.1 hw with hall | ⟨e, s, v, rfl, he, hs, hv⟩
  · exact (tail_front hall h).trans (tail_front_exponent cs)
  · obtain ⟨r, rfl⟩ := h
    rw [List.cons_append, List.cons_append, exponent_signed he hs]
    exact (List.prefix_cons_inj _).2 ((List.prefix_cons_inj _).2
      (tail_front hv (List.prefix_append v r)))

theorem exponent_mem (cs : List Char) : exponent cs ∈ afterDigits := by
  have htail : ∀ ds : List Char, ∀ c ∈ tail ds, isIdentPart c = true :=
    fun ds c hc => List.mem_takeWhile_imp hc
  rw [mem_afterDigits]
  rcases exponent_cases cs with h | ⟨e, ds, rfl, he, ⟨s, vs, rfl, hs⟩ | hs⟩
  · rw [exponent_letters h]
    exact .inl (htail cs)
  · rw [exponent_signed he hs]
    exact .inr ⟨e, s, tail vs, rfl, he, hs, htail vs⟩
  · rw [exponent_unsigned he hs]
    exact .inl (List.forall_mem_cons.2 ⟨exponentSign_isIdentPart he, htail ds⟩)

/-- What is read as an exponent is no more than what `f` reads, if `f` first takes all digits. -/
theorem exponent_front_of {f : List Char → List Char}
    (hdigit : ∀ c cs, isDigitPart c = true → f (c :: cs) = c :: f cs)
    (hend : ∀ cs, (∀ c ∈ cs.head?, isDigitPart c = false) → exponent cs <+: f cs)
    (cs : List Char) : exponent cs <+: f cs := by
  have htail : ∀ cs, tail cs <+: f cs := by
    intro cs
    induction cs with
    | nil => exact List.nil_prefix
    | cons c cs ih =>
      by_cases hc : isDigitPart c = true
      · rw [hdigit c cs hc, tail, List.takeWhile_cons_of_pos (digitPart_isIdentPart hc)]
        exact (List.prefix_cons_inj _).2 ih
      · exact (tail_front_exponent _).trans (hend _ (by simpa using hc))
  cases cs with
  | nil => exact List.nil_prefix
  | cons c cs =>
    by_cases hc : isDigitPart c = true
    · have he : isExponentSign c = false := by
        by_contra he
        rw [exponentSign_not_digitPart (Bool.eq_true_of_not_eq_false he)] at hc
        cases hc
      rw [exponent_letters (by simpa using he)]
      exact htail _
    · exact hend _ (by simpa using hc)

theorem fraction_front (hw : w ∈ (oneOf isDigitPart)∗ * afterDigits) (h : w <+: cs) :
    w <+: fraction cs := by
  obtain ⟨ds, hds, v, hv, rfl⟩ := Language.mem_mul.1 hw
  rw [mem_many] at hds
  clear hw
  induction ds generalizing cs with
  | nil =>
    exact (exponent_front hv h).trans (exponent_front_of (fun _ _ => fraction_digit)
      (fun _ hend => fraction_at_end hend ▸ List.prefix_rfl) cs)
  | cons d ds ih =>
    obtain ⟨hd, hds⟩ := List.forall_mem_cons.1 hds
    obtain ⟨r, rfl⟩ := h
    simp only [List.cons_append]
    rw [fraction_digit hd]
    exact (List.prefix_cons_inj _).2 (ih hds (List.prefix_append _ r))

theorem fraction_mem (cs : List Char) : fraction cs ∈ (oneOf isDigitPart)∗ * afterDigits :=
  Language.append_mem_mul (mem_many.2 fun _ hc => List.mem_takeWhile_imp hc) (exponent_mem _)

theorem exponent_front_run (cs : List Char) : exponent cs <+: run cs := by
  refine exponent_front_of (fun _ _ => run_digit) (fun cs hend => ?_) cs
  cases cs with
  | nil => exact List.nil_prefix
  | cons c cs =>
    by_cases hpoint : c = '.'
    · subst hpoint
      exact List.nil_prefix
    · rw [run_at_end (by simpa using ⟨hend c rfl, hpoint⟩)]

theorem run_front (hw : w ∈ afterStart) (h : w <+: cs) : w <+: run cs := by
  rw [afterStart, mul_assoc] at hw
  obtain ⟨ds, hds, u, hu, rfl⟩ := Language.mem_mul.1 hw
  rw [mem_many] at hds
  clear hw
  induction ds generalizing cs with
  | nil =>
    rw [List.nil_append] at h ⊢
    obtain ⟨p, hp, v, hv, rfl⟩ := Language.mem_mul.1 hu
    rcases mem_optional.1 hp with rfl | hp
    · exact (exponent_front hv h).trans (exponent_front_run cs)
    · obtain ⟨fs, hfs, rfl⟩ := mem_exactly_mul.1 hp
      obtain ⟨r, rfl⟩ := h
      have hfraction := fraction_front (Language.append_mem_mul hfs hv)
        (List.prefix_append (fs ++ v) r)
      simp only [List.cons_append, List.nil_append]
      rw [run_at_point]
      exact (List.prefix_cons_inj _).2 hfraction
  | cons d ds ih =>
    obtain ⟨hd, hds⟩ := List.forall_mem_cons.1 hds
    obtain ⟨r, rfl⟩ := h
    simp only [List.cons_append]
    rw [run_digit hd]
    exact (List.prefix_cons_inj _).2 (ih hds (List.prefix_append _ r))

theorem run_mem (cs : List Char) : run cs ∈ afterStart := by
  rw [afterStart, mul_assoc]
  obtain ⟨whole, rest, hw, rfl | ⟨rfl, hrest⟩⟩ := run_cases cs
  · rw [run_point hw]
    refine Language.append_mem_mul (mem_many.2 hw) ?_
    obtain ⟨ds, hds, v, hv, hsplit⟩ := Language.mem_mul.1 (fraction_mem rest)
    rw [← hsplit]
    exact Language.append_mem_mul
      (mem_optional_of_mem (mem_exactly_mul.2 ⟨ds, hds, rfl⟩)) hv
  · rw [run_plain hw hrest]
    exact Language.append_mem_mul (mem_many.2 hw)
      (Language.append_mem_mul nil_mem_optional (exponent_mem rest))

/-- A text that looks like a number begins as the lexer expects of one. -/
theorem begins_of_mem (hw : w ∈ loose) (h : w <+: cs) : begins cs = true := by
  obtain ⟨r, rfl⟩ := h
  rcases (Language.mem_add _ _ _).1 hw with hw | hw
  · rw [fromDigit_eq, mem_oneOf_mul] at hw
    obtain ⟨c, v, rfl, hc, -⟩ := hw
    have hpoint : c ≠ '.' := by
      rintro rfl
      cases hc
    rw [List.cons_append, begins_of_ne hpoint, hc]
  · rw [fromPoint_eq, mem_exactly_mul] at hw
    obtain ⟨v, hv, rfl⟩ := hw
    obtain ⟨d, u, rfl, hd, -⟩ := mem_oneOf_mul.1 hv
    exact hd

/-- The run is the longest text at the front that looks like a number. -/
theorem run_longest (h : begins cs = true) : LongestIn loose cs (run cs) where
  mem := by
    refine (Language.mem_add _ _ _).2 ?_
    unfold begins at h
    split at h
    · rename_i d cs
      right
      rw [fromPoint_eq, run_at_point, fraction_digit (digit_isDigitPart h)]
      exact mem_exactly_mul.2 ⟨_, mem_oneOf_mul.2 ⟨d, _, rfl, h, fraction_mem cs⟩, rfl⟩
    · rename_i c cs _
      left
      rw [fromDigit_eq, run_digit (digit_isDigitPart h)]
      exact mem_oneOf_mul.2 ⟨c, _, rfl, h, run_mem cs⟩
    · cases h
  front := run_isPrefix cs
  longest := by
    intro w hw hfront
    refine List.IsPrefix.length_le ?_
    obtain ⟨r, rfl⟩ := hfront
    rcases (Language.mem_add _ _ _).1 hw with hw | hw
    · rw [fromDigit_eq, mem_oneOf_mul] at hw
      obtain ⟨c, v, rfl, hc, hv⟩ := hw
      rw [List.cons_append, run_digit (digit_isDigitPart hc)]
      exact (List.prefix_cons_inj _).2 (run_front hv (List.prefix_append v r))
    · rw [fromPoint_eq, mem_exactly_mul] at hw
      obtain ⟨v, hv, rfl⟩ := hw
      obtain ⟨d, u, rfl, hd, hu⟩ := mem_oneOf_mul.1 hv
      simp only [List.cons_append, List.nil_append]
      rw [run_at_point, fraction_digit (digit_isDigitPart hd)]
      exact (List.prefix_cons_inj _).2 ((List.prefix_cons_inj _).2
        (fraction_front hu (List.prefix_append u r)))

/-! Which kind of number it is. -/

theorem isLeadingDigit_iff : isLeadingDigit c = true ↔ isDigit c = true ∧ c ≠ '0' := by
  simp only [isLeadingDigit, isDigit, le_iff_toNat, Bool.and_eq_true, decide_eq_true_eq,
    Char.reduceToNat, ne_eq, ← Char.toNat_inj]
  omega

theorem isPlainWhole_iff : isPlainWhole w = true ↔ w ∈ plainWhole := by
  rw [plainWhole, Language.mem_add, mem_oneOf_mul, mem_exactly, isPlainWhole, Bool.or_eq_true,
    beq_iff_eq]
  refine or_congr_right ?_
  cases w with
  | nil => simp
  | cons c v =>
    simp only [Bool.and_eq_true, List.all_cons, List.head?_cons, bne_iff_ne, ne_eq, reduceCtorEq,
      not_false_eq_true, true_and, Option.some.injEq, List.cons.injEq, mem_many,
      List.all_eq_true]
    constructor
    · rintro ⟨hzero, hc, hv⟩
      exact ⟨c, v, ⟨rfl, rfl⟩, isLeadingDigit_iff.2 ⟨hc, hzero⟩, hv⟩
    · rintro ⟨d, u, ⟨rfl, rfl⟩, hd, hu⟩
      obtain ⟨hc, hzero⟩ := isLeadingDigit_iff.1 hd
      exact ⟨hzero, hc, hu⟩

theorem all_digits_iff : (w != [] && w.all isDigit) = true ↔ w ∈ repeated (oneOf isDigit) := by
  rw [mem_repeated_oneOf, Bool.and_eq_true, bne_iff_ne, List.all_eq_true]

theorem isExponentTail_iff :
    isExponentTail w = true ↔ w ∈ optional (oneOf isSign) * repeated (oneOf isDigit) := by
  have hdigits : ∀ ds, ds ∈ repeated (oneOf isDigit) →
      ∀ s ∈ ds.head?, isSign s = false := by
    intro ds hds s hs
    have hdigit := (mem_repeated_oneOf.1 hds).2 s (List.mem_of_mem_head? hs)
    by_contra hsign
    simp only [isSign, Bool.not_eq_false, Bool.or_eq_true, beq_iff_eq] at hsign
    rcases hsign with rfl | rfl <;> cases hdigit
  constructor
  · intro h
    unfold isExponentTail at h
    split at h
    · exact Language.mem_mul.2 ⟨['+'], mem_optional_of_mem ⟨'+', rfl, rfl⟩, _,
        all_digits_iff.1 h, rfl⟩
    · exact Language.mem_mul.2 ⟨['-'], mem_optional_of_mem ⟨'-', rfl, rfl⟩, _,
        all_digits_iff.1 h, rfl⟩
    · exact Language.mem_mul.2 ⟨[], nil_mem_optional, _, all_digits_iff.1 h, rfl⟩
  · intro h
    obtain ⟨a, ha, ds, hds, rfl⟩ := Language.mem_mul.1 h
    rcases mem_optional.1 ha with rfl | ha
    · rw [List.nil_append]
      unfold isExponentTail
      split
      · cases hdigits _ hds '+' rfl
      · cases hdigits _ hds '-' rfl
      · exact all_digits_iff.2 hds
    · obtain ⟨s, rfl, hs⟩ := ha
      simp only [isSign, Bool.or_eq_true, beq_iff_eq] at hs
      rcases hs with rfl | rfl
      · exact all_digits_iff.2 hds
      · exact all_digits_iff.2 hds

/-- A text is parted at the first character that is not in a class. -/
theorem span_append {rest : List Char} (hw : ∀ c ∈ w, p c = true)
    (hrest : ∀ c ∈ rest.head?, p c = false) : (w ++ rest).span p = (w, rest) := by
  have htake : (w ++ rest).takeWhile p = w := takeWhile_append_iff.2 ⟨hw, hrest⟩
  have hall := List.takeWhile_append_dropWhile (p := p) (l := w ++ rest)
  rw [htake] at hall
  rw [List.span_eq_takeWhile_dropWhile, htake, List.append_cancel_left hall]

theorem plainWhole_digit (h : w ∈ plainWhole) : ∀ c ∈ w, isDigit c = true := by
  rcases (Language.mem_add _ _ _).1 h with rfl | h
  · exact List.forall_mem_singleton.2 rfl
  · obtain ⟨c, v, rfl, hc, hv⟩ := mem_oneOf_mul.1 h
    exact List.forall_mem_cons.2 ⟨(isLeadingDigit_iff.1 hc).1, mem_many.1 hv⟩

theorem plainWhole_ne_nil (h : w ∈ plainWhole) : w ≠ [] := by
  rcases (Language.mem_add _ _ _).1 h with rfl | h
  · exact List.cons_ne_nil _ _
  · obtain ⟨c, v, rfl, -⟩ := mem_oneOf_mul.1 h
    exact List.cons_ne_nil _ _

/-- A floating point number up to its exponent, if it has a point. -/
def pointed : Language Char :=
  plainWhole * exactly ['.'] * (oneOf isDigit)∗ + exactly ['.'] * repeated (oneOf isDigit)

theorem form_float :
    form .float = pointed * optional strictExponent + plainWhole * strictExponent := by
  simp only [form, pointed, add_mul]

theorem mem_pointed : w ∈ pointed ↔ ∃ whole frac, w = whole ++ '.' :: frac ∧
    (∀ c ∈ frac, isDigit c = true) ∧ (whole ∈ plainWhole ∨ whole = [] ∧ frac ≠ []) := by
  rw [pointed, Language.mem_add, mul_assoc, Language.mem_mul, mem_exactly_mul]
  constructor
  · rintro (⟨whole, hwhole, rest, hrest, rfl⟩ | ⟨frac, hfrac, rfl⟩)
    · obtain ⟨frac, hfrac, rfl⟩ := mem_exactly_mul.1 hrest
      exact ⟨whole, frac, rfl, mem_many.1 hfrac, .inl hwhole⟩
    · obtain ⟨hne, hall⟩ := mem_repeated_oneOf.1 hfrac
      exact ⟨[], frac, rfl, hall, .inr ⟨rfl, hne⟩⟩
  · rintro ⟨whole, frac, rfl, hfrac, hwhole | ⟨rfl, hne⟩⟩
    · exact .inl ⟨whole, hwhole, _, mem_exactly_mul.2 ⟨frac, mem_many.2 hfrac, rfl⟩, rfl⟩
    · exact .inr ⟨frac, mem_repeated_oneOf.2 ⟨hne, hfrac⟩, rfl⟩

theorem digit_ne_point (h : isDigit c = true) : c ≠ '.' := by
  rintro rfl
  cases h

theorem isMantissa_iff {hasExponent : Bool} : isMantissa hasExponent w = true ↔
    w ∈ pointed ∨ hasExponent = true ∧ w ∈ plainWhole := by
  have hspan : ∀ whole frac : List Char, (∀ c ∈ whole, isDigit c = true) →
      (whole ++ '.' :: frac).span (· != '.') = (whole, '.' :: frac) := by
    intro whole frac hwhole
    refine span_append (fun c hc => ?_) (by simp)
    simpa using digit_ne_point (hwhole c hc)
  constructor
  · intro h
    unfold isMantissa at h
    split at h
    · rename_i d frac heq
      obtain ⟨rfl, -, hpoint⟩ := span_split heq
      obtain rfl : d = '.' := by simpa using hpoint
      rw [all_digits_iff, mem_repeated_oneOf] at h
      exact .inl (mem_pointed.2 ⟨[], frac, rfl, h.2, .inr ⟨rfl, h.1⟩⟩)
    · rename_i whole d frac _ heq
      obtain ⟨rfl, -, hpoint⟩ := span_split heq
      obtain rfl : d = '.' := by simpa using hpoint
      rw [Bool.and_eq_true, isPlainWhole_iff, List.all_eq_true] at h
      exact .inl (mem_pointed.2 ⟨whole, frac, rfl, h.2, .inl h.1⟩)
    · rename_i whole heq
      obtain ⟨rfl, -, -⟩ := span_split heq
      rw [Bool.and_eq_true, isPlainWhole_iff] at h
      exact .inr (by rwa [List.append_nil])
  · rintro (h | ⟨hexp, h⟩)
    · obtain ⟨whole, frac, rfl, hfrac, hwhole | ⟨rfl, hne⟩⟩ := mem_pointed.1 h
      · obtain ⟨c, v, rfl⟩ := List.exists_cons_of_ne_nil (plainWhole_ne_nil hwhole)
        simp only [isMantissa, hspan _ frac (plainWhole_digit hwhole)]
        rw [Bool.and_eq_true, isPlainWhole_iff, List.all_eq_true]
        exact ⟨hwhole, hfrac⟩
      · simp only [isMantissa, hspan [] frac (by simp)]
        rw [all_digits_iff, mem_repeated_oneOf]
        exact ⟨hne, hfrac⟩
    · have hnone : w.span (· != '.') = (w, []) := by
        have hspan := @span_append (· != '.') w []
          (fun c hc => by simpa using digit_ne_point (plainWhole_digit h c hc)) (by simp)
        rwa [List.append_nil] at hspan
      obtain ⟨c, v, rfl⟩ := List.exists_cons_of_ne_nil (plainWhole_ne_nil h)
      simp only [isMantissa, hnone]
      rw [Bool.and_eq_true, isPlainWhole_iff]
      exact ⟨hexp, h⟩

theorem mem_strictExponent : w ∈ strictExponent ↔
    ∃ e exp, w = e :: exp ∧ isExponentSign e = true ∧ isExponentTail exp = true := by
  simp only [strictExponent, mul_assoc, mem_oneOf_mul, isExponentTail_iff]

theorem digit_not_exponentSign (h : isDigit c = true) : isExponentSign c = false := by
  by_contra he
  rw [Bool.not_eq_false] at he
  have hpart := exponentSign_not_digitPart he
  rw [digit_isDigitPart h] at hpart
  cases hpart

theorem pointed_not_exponentSign (h : w ∈ pointed) : ∀ c ∈ w, isExponentSign c = false := by
  obtain ⟨whole, frac, rfl, hfrac, hwhole⟩ := mem_pointed.1 h
  refine List.forall_mem_append.2 ⟨?_, List.forall_mem_cons.2 ⟨rfl, fun c hc =>
    digit_not_exponentSign (hfrac c hc)⟩⟩
  rcases hwhole with hwhole | ⟨rfl, -⟩
  · exact fun c hc => digit_not_exponentSign (plainWhole_digit hwhole c hc)
  · simp

theorem isFloat_iff : isFloat w = true ↔ w ∈ form .float := by
  have hspan : ∀ m x : List Char, (∀ c ∈ m, isExponentSign c = false) →
      (∀ c ∈ x.head?, isExponentSign c = true) →
      (m ++ x).span (fun c => c != 'e' && c != 'E') = (m, x) := by
    intro m x hm hx
    refine span_append (fun c hc => ?_) (fun c hc => ?_)
    · simpa [isExponentSign] using hm c hc
    · simpa [isExponentSign, or_iff_not_imp_left] using hx c hc
  rw [form_float, Language.mem_add]
  constructor
  · intro h
    unfold isFloat at h
    split at h
    · rename_i m e exp heq
      obtain ⟨rfl, -, hsign⟩ := span_split heq
      have he : isExponentSign e = true := by
        simpa [isExponentSign, or_iff_not_imp_left] using hsign e rfl
      rw [Bool.and_eq_true, isMantissa_iff] at h
      have hexp : e :: exp ∈ strictExponent := mem_strictExponent.2 ⟨e, exp, rfl, he, h.1⟩
      rcases h.2 with hm | ⟨-, hm⟩
      · exact .inl (Language.append_mem_mul hm (mem_optional_of_mem hexp))
      · exact .inr (Language.append_mem_mul hm hexp)
    · rename_i m heq
      obtain ⟨rfl, -, -⟩ := span_split heq
      rcases isMantissa_iff.1 h with hm | ⟨hfalse, -⟩
      · exact .inl (Language.append_mem_mul hm nil_mem_optional)
      · cases hfalse
  · rintro (h | h)
    · obtain ⟨m, hm, x, hx, rfl⟩ := Language.mem_mul.1 h
      rcases mem_optional.1 hx with rfl | hx
      · rw [isFloat, hspan m [] (pointed_not_exponentSign hm) (by simp)]
        exact isMantissa_iff.2 (.inl hm)
      · obtain ⟨e, exp, rfl, he, hexp⟩ := mem_strictExponent.1 hx
        rw [isFloat, hspan m (e :: exp) (pointed_not_exponentSign hm) (by simpa using he)]
        exact Bool.and_eq_true_iff.2 ⟨hexp, isMantissa_iff.2 (.inl hm)⟩
    · obtain ⟨m, hm, x, hx, rfl⟩ := Language.mem_mul.1 h
      obtain ⟨e, exp, rfl, he, hexp⟩ := mem_strictExponent.1 hx
      have hdigits : ∀ c ∈ m, isExponentSign c = false :=
        fun c hc => digit_not_exponentSign (plainWhole_digit hm c hc)
      rw [isFloat, hspan m (e :: exp) hdigits (by simpa using he)]
      exact Bool.and_eq_true_iff.2 ⟨hexp, isMantissa_iff.2 (.inr ⟨rfl, hm⟩)⟩

/-- What tells a floating point number from a whole one. -/
def isFloatMark (c : Char) : Bool := c == '.' || c == 'e' || c == 'E'

theorem digitPart_not_floatMark (h : isDigitPart c = true) : isFloatMark c = false := by
  by_contra hmark
  simp only [isFloatMark, Bool.not_eq_false, Bool.or_eq_true, beq_iff_eq] at hmark
  rcases hmark with (rfl | rfl) | rfl <;> cases h

theorem exponentSign_floatMark (h : isExponentSign c = true) : isFloatMark c = true := by
  rw [isFloatMark, Bool.or_assoc, Bool.or_eq_true]
  exact .inr h

/-- A floating point number has a mark, which comes right after digits at its front. -/
theorem float_split (h : w ∈ form .float) : ∃ ds c v, w = ds ++ c :: v ∧
    (∀ d ∈ ds, isDigit d = true) ∧ isFloatMark c = true := by
  rw [form_float, Language.mem_add] at h
  rcases h with h | h
  · obtain ⟨m, hm, x, -, rfl⟩ := Language.mem_mul.1 h
    obtain ⟨whole, frac, rfl, -, hwhole⟩ := mem_pointed.1 hm
    refine ⟨whole, '.', frac ++ x, by simp, ?_, rfl⟩
    rcases hwhole with hwhole | ⟨rfl, -⟩
    · exact plainWhole_digit hwhole
    · simp
  · obtain ⟨m, hm, x, hx, rfl⟩ := Language.mem_mul.1 h
    obtain ⟨e, exp, rfl, he, -⟩ := mem_strictExponent.1 hx
    exact ⟨m, e, exp, rfl, plainWhole_digit hm, exponentSign_floatMark he⟩

theorem mem_int : w ∈ form .int ↔ ∃ c v, w = c :: v ∧ isDigit c = true ∧
    ∀ d ∈ v, isDigitPart d = true := by
  simp only [form, mem_oneOf_mul, mem_many]

theorem mem_bin : w ∈ form .bin ↔ ∃ ds, w = '0' :: 'b' :: ds ∧
    ds ≠ [] ∧ ∀ d ∈ ds, isBinPart d = true := by
  simp only [form, mem_exactly_mul, mem_repeated_oneOf, List.cons_append, List.nil_append]
  grind

theorem mem_hex : w ∈ form .hex ↔ ∃ ds, w = '0' :: 'x' :: ds ∧
    ds ≠ [] ∧ ∀ d ∈ ds, isHexPart d = true := by
  simp only [form, mem_exactly_mul, mem_repeated_oneOf, List.cons_append, List.nil_append]
  grind

/-- A letter after a zero is the second character of no floating point number and no whole one,
unless it is the sign of an exponent. -/
theorem not_decimal {x : Char} (hdigit : isDigitPart x = false) (hmark : isFloatMark x = false) :
    '0' :: x :: cs ∉ form .float ∧ '0' :: x :: cs ∉ form .int := by
  constructor
  · intro h
    obtain ⟨ds, c, v, hsplit, hds, hc⟩ := float_split h
    match ds with
    | [] =>
      obtain ⟨rfl, -⟩ := List.cons.inj hsplit
      cases hc
    | [_] =>
      obtain ⟨-, htail⟩ := List.cons.inj hsplit
      obtain ⟨rfl, -⟩ := List.cons.inj htail
      rw [hmark] at hc
      cases hc
    | _ :: d :: _ =>
      obtain ⟨-, htail⟩ := List.cons.inj hsplit
      obtain ⟨rfl, -⟩ := List.cons.inj htail
      have hd : isDigit x = true := hds x (by simp)
      rw [digit_isDigitPart hd] at hdigit
      cases hdigit
  · intro h
    obtain ⟨c, v, hsplit, -, hv⟩ := mem_int.1 h
    obtain ⟨-, rfl⟩ := List.cons.inj hsplit
    rw [hv x (by simp)] at hdigit
    cases hdigit

theorem mem_int_iff (h : ∀ c ∈ cs.head?, c ≠ '_') :
    cs ∈ form .int ↔ (cs != [] && cs.all isDigitPart) = true := by
  rw [mem_int]
  cases cs with
  | nil => simp
  | cons c v =>
    have hc : isDigitPart c = true ↔ isDigit c = true := by
      simp [isDigitPart, h c rfl]
    simp only [List.cons.injEq, bne_iff_ne, ne_eq, reduceCtorEq, not_false_eq_true, true_and,
      Bool.and_eq_true, List.all_cons, List.all_eq_true, hc]
    constructor
    · rintro ⟨d, u, ⟨rfl, rfl⟩, hd, hu⟩
      exact ⟨hd, hu⟩
    · rintro ⟨hd, hv⟩
      exact ⟨c, v, ⟨rfl, rfl⟩, hd, hv⟩

theorem ite_some_iff {kind k : NumberKind} {b : Bool} :
    (if b then some k else none) = some kind ↔ kind = k ∧ b = true := by
  cases b <;> simp [eq_comm]

/-- The kind that is given to a text is the one whose pattern it has, if it has one. Only a text
that begins with an underscore would pass for a whole number without being one. -/
theorem classify_iff {kind : NumberKind} (h : ∀ c ∈ cs.head?, c ≠ '_') :
    classify cs = some kind ↔ cs ∈ form kind := by
  unfold classify
  split
  · rename_i ds
    obtain ⟨hfloat, hint⟩ := @not_decimal ds 'b' rfl rfl
    rw [ite_some_iff]
    cases kind with
    | bin => simp [mem_bin]
    | hex => simp [mem_hex]
    | float => simp [hfloat]
    | int => simp [hint]
  · rename_i ds
    obtain ⟨hfloat, hint⟩ := @not_decimal ds 'x' rfl rfl
    rw [ite_some_iff]
    cases kind with
    | bin => simp [mem_bin]
    | hex => simp [mem_hex]
    | float => simp [hfloat]
    | int => simp [hint]
  · rename_i hnotbin hnothex
    have hbin : cs ∉ form .bin := by
      intro hmem
      obtain ⟨ds, rfl, -⟩ := mem_bin.1 hmem
      exact hnotbin ds rfl
    have hhex : cs ∉ form .hex := by
      intro hmem
      obtain ⟨ds, rfl, -⟩ := mem_hex.1 hmem
      exact hnothex ds rfl
    by_cases hmark : cs.any isFloatMark = true
    · have hint : cs ∉ form .int := by
        intro hmem
        obtain ⟨c, v, rfl, hc, hv⟩ := mem_int.1 hmem
        obtain ⟨d, hd, hmark⟩ := List.any_eq_true.1 hmark
        have hall : ∀ d ∈ c :: v, isDigitPart d = true :=
          List.forall_mem_cons.2 ⟨digit_isDigitPart hc, hv⟩
        rw [digitPart_not_floatMark (hall d hd)] at hmark
        cases hmark
      rw [if_pos (show cs.any (fun c => c == '.' || c == 'e' || c == 'E') = true from hmark),
        ite_some_iff, isFloat_iff]
      cases kind with
      | bin => simp [hbin]
      | hex => simp [hhex]
      | float => simp
      | int => simp [hint]
    · have hfloat : cs ∉ form .float := by
        intro hmem
        obtain ⟨ds, c, v, rfl, -, hc⟩ := float_split hmem
        exact hmark (List.any_eq_true.2 ⟨c, by simp, hc⟩)
      rw [if_neg (show ¬ cs.any (fun c => c == '.' || c == 'e' || c == 'E') = true from hmark),
        ite_some_iff, ← mem_int_iff h]
      cases kind with
      | bin => simp [hbin]
      | hex => simp [hhex]
      | float => simp [hfloat]
      | int => simp

end Script.Numeral
