import Script.Proofs.Lexing.Holes

/-!
The scanner and the decoder in step. The scanner walks the whole text to find where a literal ends
and steps over its holes; the decoder walks the body of the literal, where it also reads names. They
are at the same places as long as no name runs on into the dollar sign of what the scanner takes for
a hole.
-/
namespace Script

open Chars

namespace Lexeme

variable {form : StringForm} {m : HoleMeasure} {skip pos n : Nat} {c : Char} {cs : List Char}
  {spans : List Span}

/-- One more character before a part that is scanned. -/
def more (x : Nat × List Span) : Nat × List Span := (x.1 + 1, x.2)

/-- What `bodyLength` finds, with the ranges of the holes that it steps over; the text stands at
byte position `pos`. -/
def stepOver (form : StringForm) (measure : HoleMeasure) (skip pos : Nat) :
    List Char → Except LexFault (Nat × List Span)
  | [] => .error .unterminatedString
  | c :: cs =>
    match skip with
    | k + 1 => more <$> stepOver form measure k (pos + c.utf8Size) cs
    | 0 =>
      if form.closer.isPrefixOf (c :: cs) then .ok (form.closer.length, [])
      else if c = '\\' && form.hasEscapes then
        more <$> stepOver form measure 1 (pos + c.utf8Size) cs
      else if c = '$' && form.hasHoles then
        match cs with
        | '{' :: hole =>
          match measure hole with
          | .ok n =>
            let span := ⟨pos, pos + c.utf8Size + byteLength (cs.take (n + 1))⟩
            (fun x => (x.1 + 1, span :: x.2)) <$>
              stepOver form measure (n + 1) (pos + c.utf8Size) cs
          | .error fault => .error fault
        | _ => more <$> stepOver form measure 0 (pos + c.utf8Size) cs
      else more <$> stepOver form measure 0 (pos + c.utf8Size) cs

theorem stepOver_zero (form : StringForm) (m : HoleMeasure) (pos : Nat) (c : Char)
    (cs : List Char) :
    stepOver form m 0 pos (c :: cs) =
      if form.closer.isPrefixOf (c :: cs) then .ok (form.closer.length, [])
      else if c = '\\' && form.hasEscapes then more <$> stepOver form m 1 (pos + c.utf8Size) cs
      else if c = '$' && form.hasHoles then
        match cs with
        | '{' :: hole =>
          match m hole with
          | .ok n =>
            (fun x => (x.1 + 1, ⟨pos, pos + c.utf8Size + byteLength (cs.take (n + 1))⟩ :: x.2)) <$>
              stepOver form m (n + 1) (pos + c.utf8Size) cs
          | .error fault => .error fault
        | _ => more <$> stepOver form m 0 (pos + c.utf8Size) cs
      else more <$> stepOver form m 0 (pos + c.utf8Size) cs := rfl

theorem stepOver_plain (hcloser : ¬ form.closer.isPrefixOf (c :: cs) = true)
    (hescape : ¬ (decide (c = '\\') && form.hasEscapes) = true)
    (hhole : (decide (c = '$') && form.hasHoles) = true → cs.head? ≠ some '{') :
    stepOver form m 0 pos (c :: cs) = more <$> stepOver form m 0 (pos + c.utf8Size) cs := by
  rw [stepOver_zero, if_neg hcloser, if_neg hescape]
  split
  · rename_i hdollar
    split
    · exact absurd rfl (hhole hdollar)
    · rfl
  · rfl

/-- The record does not change what is found. -/
theorem stepOver_length (form : StringForm) (m : HoleMeasure) (skip pos : Nat) (cs : List Char) :
    Prod.fst <$> stepOver form m skip pos cs = bodyLength form m skip cs := by
  induction cs generalizing skip pos with
  | nil => rfl
  | cons c cs ih =>
    have hmap : ∀ (k : Nat) (f : Nat × List Span → Nat × List Span), (∀ x, (f x).1 = x.1 + 1) →
        Prod.fst <$> (f <$> stepOver form m k (pos + c.utf8Size) cs) =
          (· + 1) <$> bodyLength form m k cs := by
      intro k f hf
      rw [← ih k (pos + c.utf8Size)]
      cases stepOver form m k (pos + c.utf8Size) cs with
      | error => rfl
      | ok x => exact congrArg Except.ok (hf x)
    cases skip with
    | succ k => exact hmap k more fun _ => rfl
    | zero =>
      by_cases hcloser : form.closer.isPrefixOf (c :: cs) = true
      · rw [stepOver_zero, bodyLength_zero, if_pos hcloser, if_pos hcloser]
        rfl
      by_cases hescape : (decide (c = '\\') && form.hasEscapes) = true
      · rw [stepOver_zero, bodyLength_zero, if_neg hcloser, if_neg hcloser, if_pos hescape,
          if_pos hescape]
        exact hmap 1 more fun _ => rfl
      by_cases hhole : (decide (c = '$') && form.hasHoles) = true ∧ cs.head? = some '{'
      · obtain ⟨hdollar, hbrace⟩ := hhole
        obtain ⟨hole, rfl⟩ := List.head?_eq_some_iff.1 hbrace
        rw [stepOver_zero, bodyLength_zero, if_neg hcloser, if_neg hcloser, if_neg hescape,
          if_neg hescape, if_pos hdollar, if_pos hdollar]
        cases hm : m hole with
        | ok n =>
          simp only [hm]
          exact hmap (n + 1) _ fun _ => rfl
        | error fault =>
          simp only [hm]
          rfl
      · have hplain := fun hd hbrace => hhole ⟨hd, hbrace⟩
        rw [stepOver_plain hcloser hescape hplain, bodyLength_plain hcloser hescape hplain]
        exact hmap 0 more fun _ => rfl

/-- Characters that are accounted for already are passed over. -/
theorem stepOver_skip (h : skip ≤ cs.length) :
    stepOver form m skip pos cs = (fun x => (x.1 + skip, x.2)) <$>
      stepOver form m 0 (pos + byteLength (cs.take skip)) (cs.drop skip) := by
  induction cs generalizing skip pos with
  | nil =>
    obtain rfl : skip = 0 := Nat.le_zero.1 h
    rfl
  | cons c cs ih =>
    cases skip with
    | zero =>
      simp only [List.take_zero, byteLength, Nat.add_zero, List.drop_zero]
      cases stepOver form m 0 pos (c :: cs) <;> rfl
    | succ k =>
      rw [stepOver, ih (by simpa using h), List.take_succ_cons, List.drop_succ_cons, byteLength,
        ← Nat.add_assoc]
      cases stepOver form m 0 (pos + c.utf8Size + byteLength (cs.take k)) (cs.drop k) <;> rfl

/-- The scan of a literal goes on after a part that is accounted for, which lies before the closer.
-/
theorem stepOver_drop {len : Nat} {body rest : List Char}
    (h : stepOver form m skip pos (body ++ rest) = .ok (len, spans))
    (hlen : len = body.length + form.closer.length) :
    skip ≤ body.length ∧
      stepOver form m 0 (pos + byteLength (body.take skip)) (body.drop skip ++ rest) =
        .ok ((body.drop skip).length + form.closer.length, spans) := by
  have hbody : bodyLength form m skip (body ++ rest) = .ok len := by
    rw [← stepOver_length form m skip pos, h]
    rfl
  have hle := (bodyLength_le hbody).1
  have hskip : skip ≤ body.length := by omega
  rw [stepOver_skip (by rw [List.length_append]; omega), List.take_append_of_le_length hskip,
    List.drop_append_of_le_length hskip] at h
  obtain ⟨⟨n, inner⟩, hrest, hx⟩ := map_eq_ok.1 h
  obtain ⟨hn, rfl⟩ := Prod.mk.inj hx
  refine ⟨hskip, ?_⟩
  rw [hrest, List.length_drop]
  congr 2
  omega

end Lexeme

namespace RawHole

/-- A character that a name may hold. -/
def NameChar (c : Char) : Prop := isIdentPart c = true ∨ c = '.'

theorem nameRest_chars (cs : List Char) : ∀ c ∈ cs.take (nameRest cs), NameChar c := by
  fun_induction nameRest cs with
  | case1 => simp
  | case2 c cs hc ih =>
    rw [List.take_succ_cons]
    intro d hd
    rcases List.mem_cons.1 hd with rfl | hd
    · exact .inl hc
    · exact ih d hd
  | case3 c cs _ hpoint ih =>
    rw [List.take_succ_cons]
    intro d hd
    rcases List.mem_cons.1 hd with rfl | hd
    · exact .inr (by simpa using ((Bool.and_eq_true _ _).mp hpoint).1)
    · exact ih d hd
  | case4 => simp

theorem pathLength_chars (cs : List Char) : ∀ c ∈ cs.take (pathLength cs), NameChar c := by
  unfold pathLength
  split
  · exact nameRest_chars cs
  · simp

theorem nameLength_chars (cs : List Char) : ∀ c ∈ cs.take (nameLength cs), NameChar c := by
  unfold nameLength
  split
  · split
    · simp
    · rw [List.take_succ_cons]
      intro d hd
      rcases List.mem_cons.1 hd with rfl | hd
      · exact .inr rfl
      · exact pathLength_chars _ d hd
  · exact pathLength_chars cs

theorem NameChar.not_closer {c : Char} (h : NameChar c) (form : StringForm) (cs : List Char) :
    form.closer.isPrefixOf (c :: cs) = false := by
  have hquotes : c ≠ '"' ∧ c ≠ '\'' ∧ c ≠ '`' := by
    refine ⟨?_, ?_, ?_⟩ <;>
    · rintro rfl
      rcases h with h | h <;> exact absurd h (by decide)
  cases form <;>
    simp [StringForm.closer, List.isPrefixOf_cons_cons, beq_false_of_ne (Ne.symm hquotes.1),
      beq_false_of_ne (Ne.symm hquotes.2.1), beq_false_of_ne (Ne.symm hquotes.2.2)]

theorem NameChar.ne {c d : Char} (h : NameChar c) (hd : ¬ NameChar d) : c ≠ d := by
  rintro rfl
  exact hd h

/-- The name at the front of a text ends in a dollar sign, and a brace follows it. -/
def runsOn (cs : List Char) : Bool :=
  (cs.take (nameLength cs)).getLast? == some '$' && (cs.drop (nameLength cs)).head? == some '{'

end RawHole

namespace Lexeme

open RawHole

variable {form : StringForm} {m : HoleMeasure} {pos len : Nat} {c : Char} {w cs : List Char}
  {spans : List Span}

/-- A character of a name is passed over alone, unless it is the dollar sign of a `${`. -/
theorem stepOver_nameChar (hc : NameChar c) (hbrace : c = '$' → cs.head? ≠ some '{') :
    stepOver form m 0 pos (c :: cs) = more <$> stepOver form m 0 (pos + c.utf8Size) cs := by
  have hescape : c ≠ '\\' := hc.ne (by unfold NameChar; decide)
  refine stepOver_plain (by simp [hc.not_closer]) (by simp [hescape]) fun hdollar => hbrace ?_
  simpa using ((Bool.and_eq_true _ _).mp hdollar).1

theorem stepOver_name (hw : ∀ c ∈ w, NameChar c)
    (hend : w.getLast? = some '$' → cs.head? ≠ some '{') :
    stepOver form m 0 pos (w ++ cs) = (fun x => (x.1 + w.length, x.2)) <$>
      stepOver form m 0 (pos + byteLength w) cs := by
  induction w generalizing pos with
  | nil =>
    simp only [List.nil_append, byteLength, Nat.add_zero, List.length_nil]
    cases stepOver form m 0 pos cs <;> rfl
  | cons c w ih =>
    have hbrace : c = '$' → (w ++ cs).head? ≠ some '{' := by
      rintro rfl
      cases w with
      | nil => exact hend rfl
      | cons d w =>
        have hd := (hw d (by simp)).ne (d := '{') (by unfold NameChar; decide)
        simpa using hd
    have hlast : w.getLast? = some '$' → cs.head? ≠ some '{' := by
      intro hlast
      refine hend ?_
      rw [List.getLast?_cons, hlast]
      rfl
    rw [List.cons_append, stepOver_nameChar (hw c (by simp)) hbrace,
      ih (fun d hd => hw d (by simp [hd])) hlast, byteLength, ← Nat.add_assoc]
    cases stepOver form m 0 (pos + c.utf8Size + byteLength w) cs <;> rfl

/-- A hole that is stepped over, with the range that is recorded for it. -/
theorem stepOver_hole (hf : form.hasHoles = true)
    (h : stepOver form m 0 pos ('$' :: '{' :: cs) = .ok (len, spans)) :
    ∃ n k inner, m cs = .ok n ∧ len = k + 1 ∧
      spans = ⟨pos, pos + 2 + byteLength (cs.take n)⟩ :: inner ∧
      stepOver form m (n + 1) (pos + 1) ('{' :: cs) = .ok (k, inner) := by
  have hdollar : NameChar '$' := .inl (by decide)
  rw [stepOver_zero, if_neg (by simp [hdollar.not_closer]), if_neg (by simp),
    if_pos (by simp [hf])] at h
  split at h
  · rename_i hole hcons
    obtain rfl := (List.cons.inj hcons).2
    split at h
    · rename_i n hn
      obtain ⟨⟨k, inner⟩, hrest, hx⟩ := map_eq_ok.1 h
      obtain ⟨rfl, rfl⟩ := Prod.mk.inj hx
      refine ⟨n, k, inner, hn, rfl, ?_, hrest⟩
      rw [List.take_succ_cons, byteLength, ← Nat.add_assoc]
      rfl
    · cases h
  · rename_i hne
    exact absurd rfl (hne cs)

/-- Where a name runs on into the dollar sign of a `${`, a range is recorded that begins within the
name. -/
theorem stepOver_runsOn (hf : form.hasHoles = true) (hw : ∀ c ∈ w, NameChar c)
    (hend : w.getLast? = some '$') (hbrace : cs.head? = some '{')
    (h : stepOver form m 0 pos (w ++ cs) = .ok (len, spans)) :
    ∃ span ∈ spans, span.start < pos + byteLength w := by
  obtain ⟨w, rfl⟩ := List.getLast?_eq_some_iff.1 hend
  obtain ⟨cs, rfl⟩ := List.head?_eq_some_iff.1 hbrace
  rw [List.append_assoc, List.singleton_append,
    stepOver_name (fun c hc => hw c (by simp [hc])) (by simp)] at h
  obtain ⟨⟨n, inner⟩, hrest, hx⟩ := map_eq_ok.1 h
  obtain ⟨-, rfl⟩ := Prod.mk.inj hx
  obtain ⟨-, -, -, -, -, rfl, -⟩ := stepOver_hole hf hrest
  refine ⟨_, List.mem_cons_self, ?_⟩
  rw [byteLength_append]
  have := length_le_byteLength ['$']
  simp only [List.length_cons, List.length_nil] at this ⊢
  omega

end Lexeme

/-- A hole ends with its brace. -/
theorem holeLengthWithin_last {bound braces n : Nat} {cs : List Char}
    (h : holeLengthWithin bound braces cs = .ok n) :
    ∃ inner, cs.take n = inner ++ ['}'] := by
  induction bound generalizing braces n cs with
  | zero => cases cs <;> cases h
  | succ bound ih =>
    cases cs with
    | nil => cases h
    | cons c cs =>
      rw [holeLengthWithin_succ] at h
      split at h
      · cases h
      rename_i lexeme k hscan
      split at h
      · rename_i hclose
        obtain rfl := Except.ok.inj h
        obtain rfl : lexeme = .token .closeBrace := by
          unfold Lexeme.braces at hclose
          split at hclose <;> first | rfl | cases hclose
        obtain ⟨rfl, rfl⟩ := Lexeme.scan_closeBrace hscan
        exact ⟨[], rfl⟩
      · obtain ⟨n, hrest, rfl⟩ := map_eq_ok.1 h
        obtain ⟨inner, hinner⟩ := ih hrest
        refine ⟨c :: (cs.take k ++ inner), ?_⟩
        rw [← Nat.add_assoc, List.take_succ_cons, Nat.add_comm, List.take_add, hinner]
        simp

theorem holeLength_last {n : Nat} {cs : List Char} (h : holeLength cs = .ok n) :
    ∃ inner, cs.take (n - 1) = inner ∧ cs.take n = inner ++ ['}'] := by
  obtain ⟨inner, hinner⟩ := holeLengthWithin_last h
  have hlen := congrArg List.length hinner
  rw [List.length_take_of_le (holeLengthWithin_local h).1.2, List.length_append,
    List.length_singleton] at hlen
  refine ⟨inner, ?_, hinner⟩
  have htake := congrArg (List.take (n - 1)) hinner
  rwa [List.take_take, Nat.min_eq_left (Nat.sub_le n 1), List.take_left' (by omega)] at htake

/-- What is left of a literal after its opener ends with its closer. -/
theorem Lexeme.bodyLength_closed {form : StringForm} {m : HoleMeasure} {skip n : Nat}
    {cs : List Char} (h : bodyLength form m skip cs = .ok n) :
    ∃ body post, cs = body ++ (form.closer ++ post) ∧ n = body.length + form.closer.length := by
  induction cs generalizing skip n with
  | nil => cases h
  | cons c cs ih =>
    have hnext : ∀ {k x}, (· + 1) <$> bodyLength form m k cs = .ok x →
        ∃ body post, c :: cs = body ++ (form.closer ++ post) ∧
          x = body.length + form.closer.length := by
      intro k x hx
      obtain ⟨n, hn, rfl⟩ := map_eq_ok.1 hx
      obtain ⟨body, post, rfl, rfl⟩ := ih hn
      exact ⟨c :: body, post, rfl, by rw [List.length_cons]; omega⟩
    cases skip with
    | succ k => exact hnext h
    | zero =>
      rw [bodyLength_zero] at h
      split at h
      · rename_i hcloser
        obtain ⟨post, hpost⟩ := List.isPrefixOf_iff_prefix.1 hcloser
        obtain rfl := Except.ok.inj h
        exact ⟨[], post, hpost.symm, by simp⟩
      repeat' split at h
      all_goals first
        | exact hnext h
        | cases h

theorem StringForm.body_closer (form : StringForm) (body : List Char) :
    form.body (form.opener ++ (body ++ form.closer)) = body := by
  have hlen : (form.opener ++ body ++ form.closer).length - form.closer.length =
      (form.opener ++ body).length := by
    rw [List.length_append, Nat.add_sub_cancel]
  rw [StringForm.body, ← List.append_assoc, hlen, List.take_left, List.drop_left]

/-- A string that is read from its text alone is an opener, a body and a closer. -/
theorem Word.Readable.literal {w : Word} (h : w.Readable) (hw : w.kind.isString = true) :
    ∃ form body, StringForm.opening? w.text.toList = some form ∧
      w.text.toList = form.opener ++ (body ++ form.closer) := by
  obtain ⟨form, ho, -⟩ := h.string hw
  obtain ⟨c, cs, htext, hscan⟩ := h
  rw [htext] at ho ⊢
  obtain ⟨rest, hrest⟩ := StringForm.opening?_isPrefix ho
  generalize hn : cs.length = n at hscan
  generalize w.kind = kind at hw hscan
  cases Lexeme.reads_of_scan hscan with
  | number => simp [TokenKind.isString] at hw
  | ident => simp [TokenKind.isString] at hw
  | symbol _ _ _ _ hs =>
    have hsign := (Lexeme.symbol?_kind hs).1
    rw [hw] at hsign
    cases hsign
  | @string form' k _ ho' hl =>
    obtain rfl : form' = form := Option.some.inj (ho'.symm.trans ho)
    rw [← hrest, List.drop_left] at hl
    obtain ⟨body, post, rfl, rfl⟩ := Lexeme.bodyLength_closed hl
    have hpost : post = [] := by
      have hlen := congrArg List.length hrest
      have hopener := form'.opener_pos
      simp only [List.length_append, List.length_cons] at hlen
      exact List.length_eq_zero_iff.1 (by omega)
    rw [hpost, List.append_nil] at hrest
    exact ⟨form', body, ho, hrest.symm⟩

end Script
