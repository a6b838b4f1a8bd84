import Script.Proofs.Lexing.Broken
import Script.Proofs.Lexing.Stepped

/-!
Two readings of the holes of a literal. The scanner measures each `${…}` while it looks for the end
of the literal, and the decoder measures it again in the body. They find the same holes, except
where a name runs on into the dollar sign of a hole: there the decoder takes the brace as text.
-/
namespace Script

open Chars Lexeme

namespace RawHole

/-- The ranges of the `${…}` among some holes. -/
def exprSpans (holes : List RawHole) : List Span :=
  (holes.filter (·.kind == .expr)).map span

theorem read_name {cs : List Char} (h : cs.head? ≠ some '{') (dollar : Nat) :
    read dollar cs =
      if nameLength cs = 0 then .error ⟨.malformedInterpolation, dollar, dollar + 1⟩
      else .ok (⟨.name, String.ofList (cs.take (nameLength cs)), dollar⟩, nameLength cs) := by
  unfold read
  split
  · exact absurd rfl h
  · rfl

theorem read_brace {n : Nat} {cs : List Char} (h : holeLength cs = .ok n) (dollar : Nat) :
    read dollar ('{' :: cs) = .ok (⟨.expr, String.ofList (cs.take (n - 1)), dollar⟩, n + 1) := by
  rw [read]
  simp only [h]

theorem read_dollar {dollar n : Nat} {cs : List Char} {h : RawHole}
    (hr : read dollar cs = .ok (h, n)) : h.dollar = dollar := by
  unfold read at hr
  split at hr
  · split at hr
    · obtain ⟨rfl, -⟩ := Prod.mk.inj (Except.ok.inj hr)
      rfl
    · cases hr
  · split at hr
    · cases hr
    · obtain ⟨rfl, -⟩ := Prod.mk.inj (Except.ok.inj hr)
      rfl

theorem runsOn_brace (cs : List Char) : runsOn ('{' :: cs) = false := rfl

end RawHole

/-- What is found where the scanner stepped over these ranges: they are the holes, and no error is
one of measuring a hole. -/
def InStep (spans : List Span) : Except LexError (List RawHole) → Prop
  | .ok holes => RawHole.exprSpans holes = spans
  | .error e => (∃ c, e.fault = .invalidEscape c) ∨ e.fault = .malformedInterpolation

/-- Both readings agree unless a name overruns the scanner, and then they do not. -/
structure Agreement (overrun : Bool) (spans : List Span) (found : Except LexError (List RawHole)) :
    Prop where
  same : overrun = false → InStep spans found
  other : overrun = true → ∀ holes, found = .ok holes → RawHole.exprSpans holes ≠ spans

namespace Piece

/-- Whether a name in the body of a literal runs on into a `${`, before anything that the decoder
rejects. -/
def overruns (form : StringForm) (skip : Nat) : List Char → Bool
  | [] => false
  | c :: cs =>
    match skip with
    | k + 1 => overruns form k cs
    | 0 =>
      if c = '\\' && form.hasEscapes then
        match cs with
        | [] => false
        | e :: rest => (form.unescape? e).isSome && overruns form 0 rest
      else if c = '$' && form.hasHoles then
        match RawHole.read 0 cs with
        | .error _ => false
        | .ok (_, n) => RawHole.runsOn cs || overruns form n cs
      else overruns form 0 cs

/-- The holes among the atoms of a body. -/
def holesOf (found : Except LexError (List Atom)) : Except LexError (List RawHole) :=
  List.filterMap Atom.hole? <$> found

variable {form : StringForm} {overrun : Bool} {pos skip : Nat} {cs : List Char} {spans : List Span}

theorem overruns_skip (form : StringForm) (skip : Nat) (cs : List Char) :
    overruns form skip cs = overruns form 0 (cs.drop skip) := by
  induction cs generalizing skip with
  | nil => simp [overruns]
  | cons c cs ih =>
    cases skip with
    | zero => rfl
    | succ k => exact ih k

theorem overruns_zero (form : StringForm) (c : Char) (cs : List Char) :
    overruns form 0 (c :: cs) =
      if c = '\\' && form.hasEscapes then
        match cs with
        | [] => false
        | e :: rest => (form.unescape? e).isSome && overruns form 0 rest
      else if c = '$' && form.hasHoles then
        match RawHole.read 0 cs with
        | .error _ => false
        | .ok (_, n) => RawHole.runsOn cs || overruns form n cs
      else overruns form 0 cs := by
  cases cs <;> rfl

theorem atoms_zero (form : StringForm) (pos : Nat) (c : Char) (cs : List Char) :
    atoms form 0 pos (c :: cs) =
      if c = '\\' && form.hasEscapes then
        match cs with
        | [] => .error ⟨.unterminatedString, pos, pos + 1⟩
        | e :: rest =>
          match form.unescape? e with
          | some d => (.char d :: ·) <$> atoms form 0 (pos + 1 + e.utf8Size) rest
          | none => .error ⟨.invalidEscape e, pos, pos + 1 + e.utf8Size⟩
      else if c = '$' && form.hasHoles then
        match RawHole.read pos cs with
        | .error e => .error e
        | .ok (h, n) => (.hole h :: ·) <$> atoms form n (pos + 1) cs
      else (.char c :: ·) <$> atoms form 0 (pos + c.utf8Size) cs := by
  cases cs <;> rfl

theorem overruns_dollar (hf : form.hasHoles = true) (cs : List Char) :
    overruns form 0 ('$' :: cs) =
      match RawHole.read 0 cs with
      | .error _ => false
      | .ok (_, n) => RawHole.runsOn cs || overruns form n cs := by
  rw [overruns_zero, if_neg (by simp), if_pos (by simp [hf])]

theorem atoms_dollar (hf : form.hasHoles = true) (pos : Nat) (cs : List Char) :
    atoms form 0 pos ('$' :: cs) =
      match RawHole.read pos cs with
      | .error e => .error e
      | .ok (h, n) => (.hole h :: ·) <$> atoms form n (pos + 1) cs := by
  rw [atoms_zero, if_neg (by simp), if_pos (by simp [hf])]

/-- A hole begins where its part of the body begins, or later. -/
theorem atoms_dollar_le {as : List Atom} {h : RawHole} (ha : atoms form skip pos cs = .ok as)
    (hh : .hole h ∈ as) : pos ≤ h.dollar := by
  fun_induction atoms form skip pos cs generalizing as with
  | case1 =>
    cases ha
    cases hh
  | case2 _ _ _ _ ih => exact Nat.le_of_add_right_le (ih ha hh)
  | case3 => cases ha
  | case4 _ _ _ _ _ _ _ ih =>
    obtain ⟨as, has, rfl⟩ := map_eq_ok.1 ha
    have := ih has (by simpa using hh)
    omega
  | case5 => cases ha
  | case6 => cases ha
  | case7 _ _ _ _ _ x n hread ih =>
    obtain ⟨as, has, rfl⟩ := map_eq_ok.1 ha
    rcases List.mem_cons.1 hh with hx | hh
    · obtain rfl := Atom.hole.inj hx
      exact Nat.le_of_eq (RawHole.read_dollar hread).symm
    · exact Nat.le_of_add_right_le (ih has hh)
  | case8 _ _ _ _ _ ih =>
    obtain ⟨as, has, rfl⟩ := map_eq_ok.1 ha
    exact Nat.le_of_add_right_le (ih has (by simpa using hh))

theorem holesOf_cons (a : Atom) (found : Except LexError (List Atom)) :
    holesOf ((a :: ·) <$> found) = (a.hole?.toList ++ ·) <$> holesOf found := by
  cases found with
  | error => rfl
  | ok as => cases a <;> rfl

end Piece

theorem RawHole.exprSpans_append (hs hs' : List RawHole) :
    exprSpans (hs ++ hs') = exprSpans hs ++ exprSpans hs' := by
  simp [exprSpans]

namespace Agreement

variable {overrun : Bool} {spans : List Span} {found : Except LexError (List RawHole)}

/-- More holes in front that both readings find. -/
theorem prepend (holes : List RawHole) (h : Agreement overrun spans found) :
    Agreement overrun (RawHole.exprSpans holes ++ spans) ((holes ++ ·) <$> found) := by
  cases found with
  | error e => exact ⟨h.same, fun _ _ he => nomatch he⟩
  | ok rest =>
    refine ⟨fun hover => ?_, fun hover all hall => ?_⟩
    · show RawHole.exprSpans (holes ++ rest) = _
      rw [RawHole.exprSpans_append]
      exact congrArg _ (h.same hover)
    · obtain rfl : holes ++ rest = all := Except.ok.inj hall
      rw [RawHole.exprSpans_append]
      exact fun heq => h.other hover rest rfl (List.append_cancel_left heq)

theorem char (c : Char) {atoms : Except LexError (List Piece.Atom)}
    (h : Agreement overrun spans (Piece.holesOf atoms)) :
    Agreement overrun spans (Piece.holesOf ((.char c :: ·) <$> atoms)) := by
  rw [Piece.holesOf_cons]
  exact h.prepend []

theorem expr (text : String) (dollar : Nat) {atoms : Except LexError (List Piece.Atom)}
    (h : Agreement overrun spans (Piece.holesOf atoms)) :
    Agreement overrun ((RawHole.mk .expr text dollar).span :: spans)
      (Piece.holesOf ((.hole ⟨.expr, text, dollar⟩ :: ·) <$> atoms)) := by
  rw [Piece.holesOf_cons]
  exact h.prepend [⟨.expr, text, dollar⟩]

theorem name (text : String) (dollar : Nat) {atoms : Except LexError (List Piece.Atom)}
    (h : Agreement overrun spans (Piece.holesOf atoms)) :
    Agreement overrun spans (Piece.holesOf ((.hole ⟨.name, text, dollar⟩ :: ·) <$> atoms)) := by
  rw [Piece.holesOf_cons]
  exact h.prepend [⟨.name, text, dollar⟩]

theorem invalidEscape (spans : List Span) (c : Char) (span : Span) :
    Agreement false spans (.error ⟨.invalidEscape c, span⟩) :=
  ⟨fun _ => .inl ⟨c, rfl⟩, nofun⟩

theorem malformed (spans : List Span) (span : Span) :
    Agreement false spans (.error ⟨.malformedInterpolation, span⟩) :=
  ⟨fun _ => .inr rfl, nofun⟩

end Agreement

section Bodies

variable {form : StringForm} {pos : Nat} {c : Char} {w body post : List Char} {spans : List Span}

theorem StringForm.head_closed (form : StringForm) (body post : List Char) :
    (body ++ (form.closer ++ post)).head? = some '{' ↔ body.head? = some '{' := by
  cases body with
  | nil => cases form <;> simp [closer]
  | cons => rfl

/-- The scanner ends with the closer after this body, and recorded these ranges in the body. -/
def Scanned (form : StringForm) (pos : Nat) (body post : List Char) (spans : List Span) : Prop :=
  stepOver form holeLength 0 pos (body ++ (form.closer ++ post)) =
    .ok (body.length + form.closer.length, spans)

namespace Scanned

theorem nil (h : Scanned form pos [] post spans) : spans = [] := by
  unfold Scanned at h
  cases hcloser : form.closer with
  | nil =>
    have := form.closer_pos
    simp [hcloser] at this
  | cons d ds =>
    have hprefix : form.closer.isPrefixOf (d :: (ds ++ post)) = true := by
      rw [hcloser, List.isPrefixOf_iff_prefix]
      exact List.prefix_append (d :: ds) post
    rw [hcloser, List.nil_append, List.cons_append, stepOver_zero, if_pos hprefix] at h
    exact (Prod.mk.inj (Except.ok.inj h)).2.symm

theorem not_closer (h : Scanned form pos (c :: body) post spans) :
    ¬ form.closer.isPrefixOf (c :: (body ++ (form.closer ++ post))) = true := by
  intro hcloser
  rw [Scanned, List.cons_append, stepOver_zero, if_pos hcloser] at h
  have hlen := (Prod.mk.inj (Except.ok.inj h)).1
  rw [List.length_cons] at hlen
  omega

/-- The scan of what is left after one character and those that are passed over with it. -/
theorem rest {skip : Nat}
    (h : more <$> stepOver form holeLength skip (pos + c.utf8Size) (body ++ (form.closer ++ post)) =
      .ok ((c :: body).length + form.closer.length, spans)) :
    skip ≤ body.length ∧ Scanned form (pos + c.utf8Size + byteLength (body.take skip))
      (body.drop skip) post spans := by
  obtain ⟨⟨n, inner⟩, hrest, hx⟩ := map_eq_ok.1 h
  obtain ⟨hn, rfl⟩ := Prod.mk.inj hx
  rw [List.length_cons] at hn
  exact stepOver_drop hrest (by omega)

theorem escape (he : form.hasEscapes = true) (h : Scanned form pos ('\\' :: body) post spans) :
    ∃ e rest, body = e :: rest ∧ Scanned form (pos + 1 + e.utf8Size) rest post spans := by
  have hcloser := h.not_closer
  rw [Scanned, List.cons_append, stepOver_zero, if_neg hcloser, if_pos (by simp [he])] at h
  obtain ⟨hlen, h⟩ := rest h
  cases body with
  | nil => simp at hlen
  | cons e body => exact ⟨e, body, rfl, h⟩

theorem plain (he : ¬ (decide (c = '\\') && form.hasEscapes) = true)
    (hd : ¬ (decide (c = '$') && form.hasHoles) = true)
    (h : Scanned form pos (c :: body) post spans) :
    Scanned form (pos + c.utf8Size) body post spans := by
  have hcloser := h.not_closer
  rw [Scanned, List.cons_append, stepOver_zero, if_neg hcloser, if_neg he, if_neg hd] at h
  exact (rest h).2

theorem name (hw : ∀ c ∈ w, RawHole.NameChar c)
    (hend : w.getLast? = some '$' → body.head? ≠ some '{')
    (h : Scanned form pos (w ++ body) post spans) :
    Scanned form (pos + byteLength w) body post spans := by
  rw [Scanned, List.append_assoc, stepOver_name hw] at h
  · obtain ⟨⟨n, inner⟩, hrest, hx⟩ := map_eq_ok.1 h
    obtain ⟨hn, rfl⟩ := Prod.mk.inj hx
    rw [Scanned, hrest]
    rw [List.length_append] at hn
    congr 2
    omega
  · rwa [ne_eq, StringForm.head_closed]

theorem hole (hf : form.hasHoles = true) (h : Scanned form pos ('$' :: '{' :: body) post spans) :
    ∃ n inner, holeLength body = .ok n ∧
      spans = ⟨pos, pos + 2 + byteLength (body.take n)⟩ :: inner ∧
      Scanned form (pos + 2 + byteLength (body.take n)) (body.drop n) post inner := by
  rw [Scanned, List.cons_append, List.cons_append] at h
  obtain ⟨n, k, inner, hn, hk, rfl, hrest⟩ := stepOver_hole hf h
  rw [← List.cons_append] at hrest
  simp only [List.length_cons] at hk
  obtain ⟨hlen, hrest⟩ := stepOver_drop hrest (by rw [List.length_cons]; omega)
  have hn' : n ≤ body.length := by simpa using hlen
  have hmeasure := holeLength_local n _ _ hn (Nat.le_refl _) (body.drop n)
  rw [List.take_append_of_le_length hn', List.take_append_drop] at hmeasure
  refine ⟨n, inner, hmeasure, ?_, ?_⟩
  · rw [List.take_append_of_le_length hn']
  · have hpos : pos + 1 + byteLength ('{' :: body.take n) = pos + 2 + byteLength (body.take n) := by
      rw [byteLength, ← Nat.add_assoc]
      rfl
    rw [List.take_succ_cons, List.drop_succ_cons, hpos] at hrest
    exact hrest

end Scanned

namespace Piece

/-- The range of a hole that is found is the range that the scanner steps over. -/
theorem span_hole {n : Nat} (h : holeLength body = .ok n) :
    (RawHole.mk .expr (String.ofList (body.take (n - 1))) pos).span =
      ⟨pos, pos + 2 + byteLength (body.take n)⟩ := by
  obtain ⟨inner, htake, hinner⟩ := holeLength_last h
  rw [htake, hinner, byteLength_append]
  simp only [RawHole.span, RawHole.inner, RawHole.start, utf8ByteSize_ofList]
  rfl

/-- A name that runs on into a `${` is followed by no hole of the body that begins within it, as one
of the recorded ranges does. -/
theorem runsOn_differs {as : List Atom} (hf : form.hasHoles = true)
    (hrun : RawHole.runsOn body = true) (h : Scanned form pos body post spans)
    (ha : atoms form (RawHole.nameLength body) pos body = .ok as) :
    RawHole.exprSpans (as.filterMap Atom.hole?) ≠ spans := by
  obtain ⟨hlast, hbrace⟩ : (body.take (RawHole.nameLength body)).getLast? = some '$' ∧
      (body.drop (RawHole.nameLength body)).head? = some '{' := by
    simpa [RawHole.runsOn] using hrun
  have hwords := RawHole.nameLength_chars body
  rw [atoms_skip] at ha
  rw [Scanned] at h
  generalize RawHole.nameLength body = k at *
  rw [← List.take_append_drop k body, List.append_assoc] at h
  obtain ⟨span, hmem, hstart⟩ := stepOver_runsOn hf hwords hlast
    ((form.head_closed _ post).2 hbrace) h
  rintro rfl
  obtain ⟨hole, hhole, rfl⟩ := List.mem_map.1 hmem
  obtain ⟨a, hin, hsome⟩ := List.mem_filterMap.1 (List.mem_filter.1 hhole).1
  cases a with
  | char => cases hsome
  | hole x =>
    obtain rfl := Option.some.inj hsome
    have hdollar := atoms_dollar_le ha hin
    have hspan : x.span.start = x.dollar := by
      unfold RawHole.span
      split <;> rfl
    omega

/-- Both readings take the same `${…}`. -/
theorem expr_agree {n : Nat} {inner : List Span} (hf : form.hasHoles = true)
    (hn : holeLength body = .ok n)
    (h : Agreement (overruns form 0 (body.drop n)) inner
      (holesOf (atoms form 0 (pos + 2 + byteLength (body.take n)) (body.drop n)))) :
    Agreement (overruns form 0 ('$' :: '{' :: body))
      (⟨pos, pos + 2 + byteLength (body.take n)⟩ :: inner)
      (holesOf (atoms form 0 pos ('$' :: '{' :: body))) := by
  have hpos : pos + 1 + byteLength ('{' :: body.take n) = pos + 2 + byteLength (body.take n) := by
    rw [byteLength, ← Nat.add_assoc]
    rfl
  rw [overruns_dollar hf, atoms_dollar hf, RawHole.read_brace hn, RawHole.read_brace hn]
  dsimp only
  rw [RawHole.runsOn_brace, Bool.false_or, overruns_skip, atoms_skip, List.take_succ_cons,
    List.drop_succ_cons, hpos, ← span_hole hn]
  exact h.expr _ _

/-- After a name both readings go on alike, unless the name runs on into a `${`. -/
theorem name_agree (hf : form.hasHoles = true) (hbrace : body.head? ≠ some '{')
    (h : Scanned form (pos + 1) body post spans)
    (hrest : ∀ {pos rest}, rest.length ≤ body.length → Scanned form pos rest post spans →
      Agreement (overruns form 0 rest) spans (holesOf (atoms form 0 pos rest))) :
    Agreement (overruns form 0 ('$' :: body)) spans (holesOf (atoms form 0 pos ('$' :: body))) := by
  rw [overruns_dollar hf, atoms_dollar hf, RawHole.read_name hbrace, RawHole.read_name hbrace]
  by_cases hname : RawHole.nameLength body = 0
  · rw [if_pos hname, if_pos hname]
    exact .malformed spans _
  rw [if_neg hname, if_neg hname]
  dsimp only
  cases hrun : RawHole.runsOn body with
  | true =>
    refine ⟨nofun, fun _ holes hholes => ?_⟩
    obtain ⟨as, has, rfl⟩ := map_eq_ok.1 hholes
    obtain ⟨rest, hrest, rfl⟩ := map_eq_ok.1 has
    have hne := runsOn_differs hf hrun h hrest
    exact hne
  | false =>
    rw [Bool.false_or, overruns_skip, atoms_skip]
    rw [← List.take_append_drop (RawHole.nameLength body) body] at h
    refine (hrest ?_ (h.name (RawHole.nameLength_chars body) ?_)).name _ _
    · rw [List.length_drop]
      omega
    · intro hlast hhead
      simp [RawHole.runsOn, hlast, hhead] at hrun

/-- Until the closer both readings agree, unless a name overruns the scanner. -/
theorem atoms_agree (hf : form.hasHoles = true) (n : Nat) (hn : body.length ≤ n)
    (h : Scanned form pos body post spans) :
    Agreement (overruns form 0 body) spans (holesOf (atoms form 0 pos body)) := by
  induction n generalizing pos body spans with
  | zero =>
    obtain rfl := List.length_eq_zero_iff.1 (Nat.le_zero.1 hn)
    obtain rfl := h.nil
    exact ⟨fun _ => rfl, nofun⟩
  | succ n ih =>
    cases body with
    | nil =>
      obtain rfl := h.nil
      exact ⟨fun _ => rfl, nofun⟩
    | cons c body =>
      rw [List.length_cons] at hn
      by_cases hescape : (decide (c = '\\') && form.hasEscapes) = true
      · obtain ⟨hc, he⟩ := (Bool.and_eq_true _ _).mp hescape
        obtain rfl : c = '\\' := by simpa using hc
        obtain ⟨e, rest, rfl, hrest⟩ := h.escape he
        rw [overruns_zero, atoms_zero, if_pos hescape, if_pos hescape]
        cases hd : form.unescape? e with
        | none => simpa [hd] using .invalidEscape spans e _
        | some d =>
          rw [List.length_cons] at hn
          simp only [hd, Option.isSome_some, Bool.true_and]
          exact (ih (by omega) hrest).char d
      by_cases hdollar : (decide (c = '$') && form.hasHoles) = true
      · obtain rfl : c = '$' := by simpa using ((Bool.and_eq_true _ _).mp hdollar).1
        by_cases hbrace : body.head? = some '{'
        · obtain ⟨body, rfl⟩ := List.head?_eq_some_iff.1 hbrace
          obtain ⟨m, inner, hm, rfl, hrest⟩ := h.hole hf
          refine expr_agree hf hm (ih ?_ hrest)
          rw [List.length_cons] at hn
          rw [List.length_drop]
          omega
        · have hname := h.name (w := ['$']) (by simp [RawHole.NameChar]; decide) fun _ => hbrace
          exact name_agree hf hbrace hname fun hlen => ih (by omega)
      · rw [overruns_zero, atoms_zero, if_neg hescape, if_neg hescape, if_neg hdollar,
          if_neg hdollar]
        exact (ih (by omega) (h.plain hescape hdollar)).char c

end Piece

end Bodies

/-- The holes of a literal. -/
def Decoded.holes (d : Decoded) : List RawHole := d.pieces.filterMap Piece.hole?

theorem decode_holes {literal : String} {start : Nat} {form : StringForm}
    (ho : StringForm.opening? literal.toList = some form) :
    Decoded.holes <$> decode literal start =
      Piece.holesOf (Piece.atoms form 0 (start + byteLength form.opener)
        (form.body literal.toList)) := by
  unfold decode
  rw [ho, Option.getD_some]
  dsimp only
  cases Piece.atoms form 0 (start + byteLength form.opener) (form.body literal.toList) with
  | error e => rfl
  | ok as => exact congrArg Except.ok (Piece.join_holes [] as)

/-- The scanner stepped over these ranges while it looked for the end of a token that is a literal
of this form. -/
structure Token.Stepped (base : Nat) (text : List Char) (t : Token) (form : StringForm)
    (spans : List Span) (before after : List Char) : Prop where
  place : text = before ++ (form.opener ++ after)
  start : t.start = base + byteLength before
  opening : StringForm.opening? (form.opener ++ after) = some form
  kind : t.kind = stringKind form
  scanned : ∃ len, stepOver form holeLength 0 (t.start + byteLength form.opener) after =
    .ok (len, spans) ∧ t.text.toList = form.opener ++ after.take len

namespace Token

variable {base : Nat} {source : List Char} {t : Token} {form : StringForm} {spans : List Span}
  {before after : List Char}

/-- The body of the literal, where the scanner ended with the closer after it. -/
theorem Stepped.body (h : t.Stepped base source form spans before after) :
    ∃ post, after = form.body t.text.toList ++ (form.closer ++ post) ∧
      StringForm.opening? t.text.toList = some form ∧
      Scanned form (t.start + byteLength form.opener) (form.body t.text.toList) post spans := by
  obtain ⟨len, hscan, htext⟩ := h.scanned
  have hlength : bodyLength form holeLength 0 after = .ok len := by
    rw [← stepOver_length form holeLength 0 (t.start + byteLength form.opener), hscan]
    rfl
  obtain ⟨body, post, rfl, rfl⟩ := bodyLength_closed hlength
  have hmilder : Milder post [] := by simp [Milder]
  have htext : t.text.toList = form.opener ++ (body ++ form.closer) := by
    rw [htext, ← List.append_assoc body, List.take_left' (by simp)]
  have hopen : StringForm.opening? t.text.toList = some form := by
    have hopening := h.opening
    rw [← List.append_assoc body, ← List.append_assoc, ← htext] at hopening
    have hlocal := StringForm.opening?_some_local hopening ?_ hmilder.calmer.tamer
    · rwa [List.append_nil] at hlocal
    · have := form.closer_pos
      simp only [htext, List.length_append]
      omega
  have hbody : form.body t.text.toList = body := by rw [htext, form.body_closer]
  rw [hbody]
  exact ⟨post, rfl, hopen, hscan⟩

theorem Stepped.agree (h : t.Stepped base source form spans before after)
    (hf : form.hasHoles = true) :
    Agreement (Piece.overruns form 0 (form.body t.text.toList)) spans
      (Decoded.holes <$> decode t.text t.start) := by
  obtain ⟨post, -, hopen, hscanned⟩ := h.body
  rw [decode_holes hopen]
  exact Piece.atoms_agree hf _ (Nat.le_refl _) hscanned

theorem stepped {text : String} (ht : t ∈ (Lexed.ofString base text).tokens)
    (hk : t.kind.isString = true) :
    ∃ form spans before after, t.Stepped base text.toList form spans before after := by
  obtain ⟨pre, rest, newline, htext, hscans, -⟩ := Lexed.scans base text
  obtain ⟨before, c, w, post, rfl, hstart, hword, hscan⟩ := hscans.read ht
  generalize hkind : t.kind = k at hk hscan
  generalize hw : w.length = n at hscan
  cases reads_of_scan hscan with
  | number => simp [TokenKind.isString] at hk
  | ident => simp [TokenKind.isString] at hk
  | symbol _ _ _ _ hs =>
    have := (symbol?_kind hs).1
    rw [hk] at this
    cases this
  | @string form len hb ho hl =>
    obtain ⟨after, hafter⟩ := StringForm.opening?_isPrefix ho
    rw [← hafter, List.drop_left] at hl
    rw [← stepOver_length form holeLength 0 (t.start + byteLength form.opener)] at hl
    obtain ⟨⟨n, spans⟩, hsteps, hn⟩ := map_eq_ok.1 hl
    obtain rfl : n = len := hn
    refine ⟨form, spans, before, after, ⟨?_, hstart, hafter ▸ ho, hkind, n, hsteps, ?_⟩⟩
    · rw [htext, hafter]
      simp
    · have hlen : (c :: w).length = form.opener.length + n := by
        have := form.opener_pos
        rw [List.length_cons]
        omega
      have htake := congrArg (List.take (form.opener.length + n)) hafter
      rw [List.take_length_add_append, ← hlen, ← List.cons_append, List.take_left] at htake
      rw [hword, htake]

/-- The scanner and the decoder agree on the holes of every literal with holes, unless a name in it
runs on into a `${`. The holes that are decoded are those that the scanner stepped over, and an
error is none of measuring a hole. Where a name does run on, the two never find the same holes. -/
theorem holes_stepped {text : String} (ht : t ∈ (Lexed.ofString base text).tokens)
    (hk : t.kind = .formattedString ∨ t.kind = .rawString) :
    ∃ form spans before after, t.Stepped base text.toList form spans before after ∧
      Agreement (Piece.overruns form 0 (form.body t.text.toList)) spans
        (Decoded.holes <$> decode t.text t.start) := by
  have hstring : t.kind.isString = true := by rcases hk with hk | hk <;> rw [hk] <;> rfl
  obtain ⟨form, spans, before, after, h⟩ := stepped ht hstring
  have hf : form.hasHoles = true := by
    rw [h.kind] at hk
    cases form <;> simp_all [stringKind, StringForm.hasHoles]
  exact ⟨form, spans, before, after, h, h.agree hf⟩

/-- A name and a hole, which both readings find. -/
theorem holes_stepped_name :
    ∃ form spans before after,
      (Token.mk .formattedString "f\"$a $\x7bx\x7d\"" 0 false).Stepped 0
        "f\"$a $\x7bx\x7d\"".toList form spans before after ∧
      Agreement (Piece.overruns form 0 (form.body "f\"$a $\x7bx\x7d\"".toList)) spans
        (Decoded.holes <$> decode "f\"$a $\x7bx\x7d\"" 0) :=
  have hl : Lexed.ofString 0 "f\"$a $\x7bx\x7d\"" =
      ⟨[⟨.formattedString, "f\"$a $\x7bx\x7d\"", 0, false⟩], .ok (Token.endAt 10 false)⟩ := by rfl
  holes_stepped (by rw [hl]; exact List.mem_singleton.2 rfl) (.inl rfl)

/-- A name that takes the dollar sign of the hole after it: the scanner stepped over that hole, and
the decoder finds none. In a longer text the decoder then measures a hole that is none. -/
theorem holes_overrun :
    (∃ after, (Token.mk .formattedString "f\"$a$\x7bx\x7d\"" 0 false).Stepped 0
        "f\"$a$\x7bx\x7d\"".toList .formatted [⟨4, 8⟩] [] after ∧
      ¬ InStep [⟨4, 8⟩] (Decoded.holes <$> decode "f\"$a$\x7bx\x7d\"" 0)) ∧
    ∃ t ∈ (Lexed.ofString 0 "f\"$a$\x7b \"$\x7b\" \x7d\"").tokens, t.kind = .formattedString ∧
      decode t.text t.start = .error ⟨.unterminatedString, 8, 9⟩ := by
  have hd : decode "f\"$a$\x7bx\x7d\"" 0 =
      .ok ⟨.formatted, [.hole ⟨.name, "a$", 2⟩, .text "\x7bx\x7d"]⟩ :=
    eq_ok_of_toOption (by decide +kernel)
  have hscan : stepOver .formatted holeLength 0 2 "$a$\x7bx\x7d\"".toList = .ok (7, [⟨4, 8⟩]) :=
    eq_ok_of_toOption (by decide +kernel)
  refine ⟨⟨_, ⟨rfl, rfl, by decide +kernel, rfl, 7, hscan, by decide +kernel⟩, ?_⟩, ?_⟩
  · rw [hd]
    exact fun h => nomatch (h : RawHole.exprSpans [⟨.name, "a$", 2⟩] = [⟨4, 8⟩])
  · have hl : Lexed.ofString 0 "f\"$a$\x7b \"$\x7b\" \x7d\"" =
        ⟨[⟨.formattedString, "f\"$a$\x7b \"$\x7b\" \x7d\"", 0, false⟩],
          .ok (Token.endAt 14 false)⟩ := by rfl
    exact ⟨_, by rw [hl]; exact List.mem_singleton.2 rfl, rfl,
      eq_error_of_failure? (by decide +kernel)⟩

end Token

end Script
