import Mathlib.Data.List.TakeDrop
import Script.Proofs.Bytes.Bodies

/-!
Lexemes read by bytes. Each is what is read by characters, and takes the bytes of its characters.
-/
namespace Script.Bytes

open Chars (byteLength byteLength_append isBlank isIdentStart isIdentPart)
open Lexeme (bodyLength scan commentLength symbol?)

variable {μ : Measure} {m : HoleMeasure} {text pre cs : List Char} {c : Char} {bound : Nat}

theorem find_eq (p : Char → Bool) (cs : List Char) :
    find p cs = if cs.dropWhile (! p ·) = [] then none
      else some (byteLength (cs.takeWhile (! p ·))) := by
  induction cs with
  | nil => rfl
  | cons c cs ih =>
    rw [find, ih]
    cases hp : p c with
    | true => simp [hp, byteLength]
    | false =>
      simp only [List.takeWhile_cons, List.dropWhile_cons, hp, Bool.not_false, if_true,
        Bool.false_eq_true, if_false]
      split
      · rfl
      · simp [byteLength, Nat.add_comm]

/-- A numeral is cut at its exponent letter, which is one byte. -/
theorem isFloat_ok (cs : List Char) : isFloat cs = .ok (Numeral.isFloat cs) := by
  have hletter : (fun c => ! (c == 'e' || c == 'E')) = fun c => c != 'e' && c != 'E' := by
    funext c
    rw [Bool.not_or]
    rfl
  have hall := List.takeWhile_append_dropWhile (p := fun c => c != 'e' && c != 'E') (l := cs)
  rw [isFloat, find_eq, hletter, Numeral.isFloat, List.span_eq_takeWhile_dropWhile]
  cases hd : cs.dropWhile (fun c => c != 'e' && c != 'E') with
  | nil =>
    rw [hd, List.append_nil] at hall
    rw [hall]
    rfl
  | cons e exponent =>
    rw [hd] at hall
    have hsize : e.utf8Size = 1 := by
      have he := (takeWhile_append_iff.1 (congrArg (List.takeWhile _) hall)).2 e rfl
      simp only [Bool.and_eq_false_iff, bne_eq_false_iff_eq] at he
      rcases he with rfl | rfl <;> decide
    generalize cs.takeWhile (fun c => c != 'e' && c != 'E') = mantissa at hall
    subst hall
    have hhead : slice 0 (byteLength mantissa) (mantissa ++ e :: exponent) = .ok mantissa :=
      @slice_append [] mantissa _ _ _ rfl (by simp [byteLength])
    have htail : sliceFrom (byteLength mantissa + 1) (mantissa ++ e :: exponent) =
        .ok exponent := by
      rw [← List.singleton_append, ← List.append_assoc]
      exact sliceFrom_append (by simp [byteLength, hsize])
    simp only [reduceCtorEq, if_false, hhead, htail]
    rfl

theorem classify_ok (cs : List Char) : classify cs = .ok (Numeral.classify cs) := by
  fun_cases classify cs with
  | case1 => rfl
  | case2 => rfl
  | case3 cs hbin hhex hfloat =>
    rw [Numeral.classify.eq_3 cs hbin hhex, if_pos hfloat, isFloat_ok]
    rfl
  | case4 cs hbin hhex hfloat =>
    rw [Numeral.classify.eq_3 cs hbin hhex, if_neg hfloat]
    rfl

/-- The first `*/` ends where a comment does. -/
theorem findClose_add (cs : List Char) :
    (· + 2) <$> findClose cs = (fun n => byteLength (cs.take n)) <$> commentLength cs := by
  fun_induction findClose cs with
  | case1 => rfl
  | case2 cs =>
    rw [commentLength]
    rfl
  | case3 c cs hnot ih =>
    rw [commentLength.eq_3 _ _ hnot]
    have hstep : (· + 2) <$> ((· + c.utf8Size) <$> findClose cs) =
        (· + c.utf8Size) <$> ((· + 2) <$> findClose cs) := by
      cases findClose cs with
      | none => rfl
      | some n => exact congrArg some (Nat.add_right_comm n _ 2)
    rw [hstep, ih]
    cases commentLength cs with
    | none => rfl
    | some n => exact congrArg some (Nat.add_comm _ _)

/-- What is read by characters, in bytes. -/
def lexemeInBytes (c : Char) (cs : List Char) :
    Except Misfit (Lexeme × Nat) → Except (LexFault × Nat) (Lexeme × Nat)
  | .ok (lexeme, n) => .ok (lexeme, byteLength (cs.take n))
  | .error misfit => .error (misfit.fault, byteLength ((c :: cs).take misfit.length))

theorem byteLength_takeWhile (p : Char → Bool) (cs : List Char) :
    byteLength (cs.take (cs.takeWhile p).length) = byteLength (cs.takeWhile p) := by
  rw [← List.prefix_iff_eq_take.1 (List.takeWhile_prefix p)]

theorem lexeme_eq (μ : Measure) (text : List Char) (pos : Nat) (c : Char) (cs : List Char) :
    lexeme μ text pos c cs =
      if isBlank c then .ok (.ok (.blank, byteLength (cs.takeWhile isBlank)))
      else if Numeral.begins (c :: cs) then do
        let run ← slice pos (pos + byteLength (Numeral.run (c :: cs))) text
        match ← classify run with
        | some kind => return .ok (.token (.number kind), byteLength run.tail)
        | none => return .error (.malformedNumber, byteLength run)
      else match StringForm.opening? (c :: cs) with
        | some form => do
          let rest ← sliceFrom (pos + byteLength form.opener) text
          match ← scanBody form μ rest 0 with
          | .ok n => do
            let _ ← bump text (pos + byteLength form.opener) n
            return .ok (.token (Lexeme.stringKind form), byteLength form.opener.tail + n)
          | .error fault => return .error (fault, byteLength form.opener)
        | none =>
          if isIdentStart c then .ok (.ok (.token .ident, byteLength (cs.takeWhile isIdentPart)))
          else match c, cs with
            | '/', '/' :: rest => .ok (.ok (.blank, 1 + byteLength (rest.takeWhile (· != '\n'))))
            | '/', '*' :: _ => comment text pos
            | _, _ =>
              match symbol? (c :: cs) with
              | some (kind, n) => .ok (.ok (.token kind, byteLength (cs.take (n - 1))))
              | none => .ok (.error (.unrecognizedCharacter, c.utf8Size)) := rfl

/-- A comment ends at its first closer. -/
theorem comment_ok (pre rest : List Char) :
    comment (pre ++ '/' :: '*' :: rest) (byteLength pre) =
      .ok (match commentLength rest with
        | some n => .ok (.blank, byteLength (('*' :: rest).take (1 + n)))
        | none => .error (.unterminatedComment, 2)) := by
  have hslash : '/'.utf8Size = 1 := by decide
  have hstar : '*'.utf8Size = 1 := by decide
  have hsplit : pre ++ '/' :: '*' :: rest = (pre ++ ['/', '*']) ++ rest := by simp
  have hslice : sliceFrom (byteLength pre + 2) (pre ++ '/' :: '*' :: rest) = .ok rest := by
    rw [hsplit]
    exact sliceFrom_append (by simp [byteLength, hslash, hstar])
  have hclose := findClose_add rest
  rw [comment, hslice]
  simp only [bind, Except.bind]
  cases hn : commentLength rest with
  | none =>
    rw [hn] at hclose
    cases hf : findClose rest with
    | none => rfl
    | some n => rw [hf] at hclose; cases hclose
  | some n =>
    rw [hn] at hclose
    cases hf : findClose rest with
    | none => rw [hf] at hclose; cases hclose
    | some k =>
      rw [hf] at hclose
      have hk : k + 2 = byteLength (rest.take n) := Option.some.inj hclose
      have hbump : bump (pre ++ '/' :: '*' :: rest) (byteLength pre + 2) (k + 2) =
          .ok (byteLength pre + 2 + (k + 2)) := by
        have htake : pre ++ '/' :: '*' :: rest =
            (pre ++ '/' :: '*' :: rest.take n) ++ rest.drop n := by simp
        rw [htake]
        refine bump_append ?_
        rw [byteLength_append, byteLength, byteLength, hslash, hstar, hk]
        omega
      simp only [hbump]
      show Except.ok (Except.ok (_, 1 + (k + 2))) =
        Except.ok (Except.ok (_, byteLength (('*' :: rest).take (1 + n))))
      rw [Nat.add_comm 1 n, List.take_succ_cons, byteLength, hstar, hk]

section Cases

variable (hblank : ¬ isBlank c = true)

include hblank

theorem lexeme_number (hbegins : Numeral.begins (c :: cs) = true) :
    lexeme μ (pre ++ c :: cs) (byteLength pre) c cs = .ok (lexemeInBytes c cs (scan m c cs)) := by
  obtain ⟨rest, hrest⟩ := Numeral.run_isPrefix (c :: cs)
  obtain ⟨word, hword⟩ : ∃ word, Numeral.run (c :: cs) = c :: word := by
    cases hrun : Numeral.run (c :: cs) with
    | nil => exact absurd hrun (Numeral.run_ne_nil hbegins)
    | cons d word =>
      rw [hrun, List.cons_append] at hrest
      rw [(List.cons.inj hrest).1]
      exact ⟨word, rfl⟩
  rw [hword, List.cons_append] at hrest
  obtain rfl : word ++ rest = cs := (List.cons.inj hrest).2
  have hslice : slice (byteLength pre) (byteLength pre + byteLength (c :: word))
      (pre ++ c :: (word ++ rest)) = .ok (c :: word) := slice_append rfl rfl
  rw [lexeme_eq, Lexeme.scan_eq, if_neg hblank, if_neg hblank, if_pos hbegins, if_pos hbegins,
    hword, hslice]
  simp only [bind, Except.bind, classify_ok]
  cases Numeral.classify (c :: word) with
  | none =>
    show Except.ok (Except.error (_, byteLength (c :: word))) = Except.ok (Except.error (_, _))
    rw [← List.cons_append, List.take_left]
  | some kind =>
    show Except.ok (Except.ok (_, byteLength word)) = Except.ok (Except.ok (_, _))
    rw [List.length_cons, Nat.add_sub_cancel, List.take_left]

variable (hbegins : ¬ Numeral.begins (c :: cs) = true)

include hbegins

theorem lexeme_string {form : StringForm} (ho : StringForm.opening? (c :: cs) = some form)
    (hμ : Measures μ m bound) (hb : cs.length ≤ bound) :
    lexeme μ (pre ++ c :: cs) (byteLength pre) c cs = .ok (lexemeInBytes c cs (scan m c cs)) := by
  obtain ⟨rest, hrest⟩ := StringForm.opening?_isPrefix ho
  obtain ⟨tail, htail⟩ : ∃ tail, form.opener = c :: tail := by
    have hpos := form.opener_pos
    cases hopener : form.opener with
    | nil => simp [hopener] at hpos
    | cons d tail =>
      rw [hopener, List.cons_append] at hrest
      rw [(List.cons.inj hrest).1]
      exact ⟨tail, rfl⟩
  rw [htail, List.cons_append] at hrest
  obtain rfl : tail ++ rest = cs := (List.cons.inj hrest).2
  have hslice : sliceFrom (byteLength pre + byteLength (c :: tail))
      (pre ++ c :: (tail ++ rest)) = .ok rest := by
    rw [← List.cons_append, ← List.append_assoc]
    exact sliceFrom_append (by rw [byteLength_append])
  have hdrop : (c :: (tail ++ rest)).drop (c :: tail).length = rest := by
    rw [← List.cons_append, List.drop_left]
  have hscan : scanBody form μ rest 0 = .ok (inBytes rest (bodyLength form m 0 rest)) :=
    scanBody_ok hμ (by rw [List.length_append] at hb; omega)
  rw [lexeme_eq, Lexeme.scan_eq, if_neg hblank, if_neg hblank, if_neg hbegins, if_neg hbegins, ho]
  dsimp only
  rw [htail, hdrop, hslice]
  simp only [bind, Except.bind, hscan]
  cases bodyLength form m 0 rest with
  | error fault =>
    show Except.ok (Except.error (_, _)) = Except.ok (Except.error (_, _))
    rw [← List.cons_append, List.take_left]
  | ok n =>
    have hbump : bump (pre ++ c :: (tail ++ rest)) (byteLength pre + byteLength (c :: tail))
        (byteLength (rest.take n)) =
          .ok (byteLength pre + byteLength (c :: tail) + byteLength (rest.take n)) := by
      have hsplit : pre ++ c :: (tail ++ rest) =
          (pre ++ (c :: tail) ++ rest.take n) ++ rest.drop n := by
        simp
      rw [hsplit]
      exact bump_append (by rw [byteLength_append, byteLength_append])
    simp only [inBytes, Functor.map, Except.map, hbump]
    show Except.ok (Except.ok (_, _)) = Except.ok (Except.ok (_, _))
    rw [List.length_cons, Nat.add_sub_cancel, List.take_length_add_append, byteLength_append]
    rfl

variable (ho : StringForm.opening? (c :: cs) = none)

include ho

theorem lexeme_word (hc : isIdentStart c = true) :
    lexeme μ (pre ++ c :: cs) (byteLength pre) c cs = .ok (lexemeInBytes c cs (scan m c cs)) := by
  rw [lexeme_eq, Lexeme.scan_eq, if_neg hblank, if_neg hblank, if_neg hbegins, if_neg hbegins, ho]
  dsimp only
  rw [if_pos hc, if_pos hc, ← byteLength_takeWhile]
  rfl

/-- Where no comment begins, a symbol is looked up. -/
theorem lexeme_symbol {text : List Char} {pos : Nat} (hc : ¬ isIdentStart c = true)
    (hline : ∀ rest, c = '/' → cs ≠ '/' :: rest) (hblock : ∀ rest, c = '/' → cs ≠ '*' :: rest) :
    lexeme μ text pos c cs =
      match symbol? (c :: cs) with
      | some (kind, n) => .ok (.ok (.token kind, byteLength (cs.take (n - 1))))
      | none => .ok (.error (.unrecognizedCharacter, c.utf8Size)) := by
  rw [lexeme_eq, if_neg hblank, if_neg hbegins, ho]
  dsimp only
  rw [if_neg hc]
  split
  · exact (hline _ rfl rfl).elim
  · exact (hblock _ rfl rfl).elim
  · rfl

theorem scan_symbol (hc : ¬ isIdentStart c = true) (hline : ∀ rest, c = '/' → cs ≠ '/' :: rest)
    (hblock : ∀ rest, c = '/' → cs ≠ '*' :: rest) :
    scan m c cs =
      match symbol? (c :: cs) with
      | some (kind, n) => .ok (.token kind, n - 1)
      | none => .error ⟨.unrecognizedCharacter, 1⟩ := by
  rw [Lexeme.scan_eq, if_neg hblank, if_neg hbegins, ho]
  dsimp only
  rw [if_neg hc]
  split
  · exact (hline _ rfl rfl).elim
  · exact (hblock _ rfl rfl).elim
  · rfl

theorem lexeme_sign (hc : ¬ isIdentStart c = true) :
    lexeme μ (pre ++ c :: cs) (byteLength pre) c cs = .ok (lexemeInBytes c cs (scan m c cs)) := by
  by_cases hline : ∃ rest, c = '/' ∧ cs = '/' :: rest
  · obtain ⟨rest, rfl, rfl⟩ := hline
    rw [lexeme_eq, Lexeme.scan_eq, if_neg hblank, if_neg hblank, if_neg hbegins, if_neg hbegins, ho]
    show Except.ok (Except.ok (_, _)) =
      Except.ok (Except.ok (_, byteLength (('/' :: rest).take (1 + (rest.takeWhile _).length))))
    rw [Nat.add_comm 1 (List.length _), List.take_succ_cons, byteLength, byteLength_takeWhile]
    rfl
  by_cases hblock : ∃ rest, c = '/' ∧ cs = '*' :: rest
  · obtain ⟨rest, rfl, rfl⟩ := hblock
    rw [lexeme_eq, Lexeme.scan_eq, if_neg hblank, if_neg hblank, if_neg hbegins, if_neg hbegins, ho]
    show comment _ _ = Except.ok (lexemeInBytes '/' ('*' :: rest)
      (match commentLength rest with
        | some n => .ok (.blank, 1 + n)
        | none => .error ⟨.unterminatedComment, 2⟩))
    rw [comment_ok pre]
    cases commentLength rest <;> rfl
  · have hline' : ∀ rest, c = '/' → cs ≠ '/' :: rest := fun rest h h' => hline ⟨rest, h, h'⟩
    have hblock' : ∀ rest, c = '/' → cs ≠ '*' :: rest := fun rest h h' => hblock ⟨rest, h, h'⟩
    rw [lexeme_symbol hblank hbegins ho hc hline' hblock',
      scan_symbol hblank hbegins ho hc hline' hblock']
    cases symbol? (c :: cs) <;> rfl

end Cases

theorem lexeme_ok (hμ : Measures μ m bound) (hb : cs.length ≤ bound) :
    lexeme μ (pre ++ c :: cs) (byteLength pre) c cs = .ok (lexemeInBytes c cs (scan m c cs)) := by
  by_cases hblank : isBlank c = true
  · rw [lexeme_eq, Lexeme.scan_eq, if_pos hblank, if_pos hblank, ← byteLength_takeWhile]
    rfl
  by_cases hbegins : Numeral.begins (c :: cs) = true
  · exact lexeme_number hblank hbegins
  cases ho : StringForm.opening? (c :: cs) with
  | some form => exact lexeme_string hblank hbegins ho hμ hb
  | none =>
    by_cases hc : isIdentStart c = true
    · exact lexeme_word hblank hbegins ho hc
    · exact lexeme_sign hblank hbegins ho hc

end Script.Bytes
