import Mathlib.Data.List.Chain
import Script.Proofs.Interpolation

/-!
The pieces of a literal that is taken apart cover its body, each character once. The decoder walks
the body with a run of text that is still open; a hole closes that run, and the walk goes on behind
the characters that the hole takes.
-/
namespace Script

open Chars

/-- The characters that a part of a body without holes stands for: an escape stands for its
character, and every other character for itself. -/
inductive StringForm.Reads (form : StringForm) : List Char → List Char → Prop
  | nil : form.Reads [] []
  | escape {e d : Char} {part cs : List Char} (he : form.hasEscapes = true)
      (hd : form.unescape? e = some d) (h : form.Reads part cs) :
      form.Reads ('\\' :: e :: part) (d :: cs)
  | plain {c : Char} {part cs : List Char} (he : c = '\\' → form.hasEscapes = false)
      (hd : c = '$' → form.hasHoles = false) (h : form.Reads part cs) :
      form.Reads (c :: part) (c :: cs)

namespace StringForm.Reads

variable {form : StringForm} {part part' cs cs' : List Char}

theorem append (h : form.Reads part cs) (h' : form.Reads part' cs') :
    form.Reads (part ++ part') (cs ++ cs') := by
  induction h with
  | nil => exact h'
  | escape he hd _ ih => exact .escape he hd ih
  | plain he hd _ ih => exact .plain he hd ih

/-- One more character at the end of a run that is kept in reverse. -/
theorem extend {unit run : List Char} {d : Char} (h : form.Reads part run.reverse)
    (hunit : form.Reads unit [d]) : form.Reads (part ++ unit) (d :: run).reverse := by
  rw [List.reverse_cons]
  exact h.append hunit

theorem eq_nil (h : form.Reads part []) : part = [] := by
  cases h
  rfl

/-- A form without escapes changes nothing. -/
theorem eq_part (hf : form.hasEscapes = false) (h : form.Reads part cs) : cs = part := by
  induction h with
  | nil => rfl
  | escape he => exact absurd (he.symm.trans hf) (by decide)
  | plain _ _ _ ih => rw [ih]

end StringForm.Reads

namespace Piece

variable {form : StringForm} {pos : Nat} {p : Piece} {ps : List Piece} {part body : List Char}
  {parts : List (List Char)} {run : List Char}

/-- The piece that stands for a part of a body at byte position `pos`. A hole spans its part, and
its inner range leaves out the dollar sign and the braces. -/
inductive Covers (form : StringForm) (pos : Nat) : Piece → List Char → Prop
  | text {s : String} {part : List Char} (hne : s ≠ "") (h : form.Reads part s.toList) :
      Covers form pos (.text s) part
  | name {h : RawHole} {name : List Char} (hf : form.hasHoles = true) (hkind : h.kind = .name)
      (htext : h.text.toList = name) (hne : name ≠ [])
      (hspan : h.span = ⟨pos, pos + byteLength ('$' :: name)⟩)
      (hinner : h.inner = ⟨pos + 1, pos + byteLength ('$' :: name)⟩) :
      Covers form pos (.hole h) ('$' :: name)
  | expr {h : RawHole} {inner : List Char} (hf : form.hasHoles = true) (hkind : h.kind = .expr)
      (htext : h.text.toList = inner)
      (hspan : h.span = ⟨pos, pos + byteLength ('$' :: '{' :: (inner ++ ['}']))⟩)
      (hinner : h.inner = ⟨pos + 2, pos + byteLength ('$' :: '{' :: inner)⟩) :
      Covers form pos (.hole h) ('$' :: '{' :: (inner ++ ['}']))

/-- Pieces that stand for consecutive parts of a body, the first of them at `pos`. -/
inductive Cover (form : StringForm) : Nat → List Piece → List (List Char) → Prop
  | nil {pos : Nat} : Cover form pos [] []
  | cons {pos : Nat} {p : Piece} {ps : List Piece} {part : List Char} {parts : List (List Char)}
      (h : Covers form pos p part) (hs : Cover form (pos + byteLength part) ps parts) :
      Cover form pos (p :: ps) (part :: parts)

/-- Two neighbours of which one at least is a hole. -/
def Apart (p q : Piece) : Prop := p.hole?.isSome ∨ q.hole?.isSome

theorem Covers.hasHoles (h : Covers form pos p part) (hp : p.hole?.isSome) :
    form.hasHoles = true := by
  cases h with
  | text => cases hp
  | name hf => exact hf
  | expr hf => exact hf

theorem Cover.no_holes (hf : form.hasHoles = false) (h : Cover form pos ps parts) :
    ∀ p ∈ ps, p.hole? = none := by
  induction h with
  | nil => exact nofun
  | cons hp _ ih =>
    refine List.forall_mem_cons.2 ⟨?_, ih⟩
    rw [← Option.not_isSome_iff_eq_none]
    exact fun hsome => absurd ((hp.hasHoles hsome).symm.trans hf) (by decide)

theorem Cover.verbatim (hf : form.hasEscapes = false) (h : Cover form pos ps parts) :
    ∀ s part, (.text s, part) ∈ ps.zip parts → s.toList = part := by
  induction h with
  | nil => exact nofun
  | @cons _ p _ part _ hp _ ih =>
    intro s part' hmem
    rcases List.mem_cons.1 hmem with heq | hmem
    · obtain ⟨rfl, rfl⟩ := Prod.mk.inj heq
      cases hp with
      | text _ h => exact h.eq_part hf
    · exact ih s part' hmem

/-- A hole that is read stands for the dollar sign and the characters that it takes. -/
theorem covers_read {cs : List Char} {h : RawHole} {n : Nat} (hf : form.hasHoles = true)
    (hr : RawHole.read pos cs = .ok (h, n)) : Covers form pos (.hole h) ('$' :: cs.take n) := by
  by_cases hbrace : cs.head? = some '{'
  · obtain ⟨cs, rfl⟩ := List.head?_eq_some_iff.1 hbrace
    cases hn : holeLength cs with
    | error e => simp [RawHole.read, hn] at hr
    | ok m =>
      rw [RawHole.read_brace hn] at hr
      obtain ⟨rfl, rfl⟩ := Prod.mk.inj (Except.ok.inj hr)
      obtain ⟨inner, htake, hinner⟩ := holeLength_last hn
      rw [List.take_succ_cons, hinner, htake]
      refine .expr hf rfl String.toList_ofList ?_ ?_
      · simp only [RawHole.span, RawHole.inner, RawHole.start, utf8ByteSize_ofList, byteLength,
          byteLength_append]
        congr 1
        show pos + 2 + byteLength inner + 1 = pos + (1 + (1 + (byteLength inner + (1 + 0))))
        omega
      · simp only [RawHole.inner, RawHole.start, utf8ByteSize_ofList, byteLength]
        congr 1
        show pos + 2 + byteLength inner = pos + (1 + (1 + byteLength inner))
        omega
  · rw [RawHole.read_name hbrace] at hr
    by_cases hname : RawHole.nameLength cs = 0
    · rw [if_pos hname] at hr
      cases hr
    rw [if_neg hname] at hr
    obtain ⟨rfl, rfl⟩ := Prod.mk.inj (Except.ok.inj hr)
    have hstop : ∀ name : List Char,
        pos + 1 + byteLength name = pos + byteLength ('$' :: name) := by
      intro name
      rw [byteLength, ← Nat.add_assoc]
      rfl
    refine .name hf rfl String.toList_ofList ?_ ?_ ?_
    · intro hnil
      have hcs : cs = [] := (List.take_eq_nil_iff.1 hnil).resolve_left hname
      rw [hcs] at hname
      exact hname rfl
    · simp only [RawHole.span, RawHole.inner, RawHole.start, utf8ByteSize_ofList, hstop]
    · simp only [RawHole.inner, RawHole.start, utf8ByteSize_ofList, hstop]

/-- The run of text that is open before some pieces covers its part in front of theirs. -/
theorem cover_ofRun (hrun : form.Reads part run.reverse)
    (h : Cover form (pos + byteLength part) ps parts) :
    ∃ all, part ++ parts.flatten = all.flatten ∧ Cover form pos (ofRun run ++ ps) all := by
  cases run with
  | nil =>
    obtain rfl := hrun.eq_nil
    exact ⟨parts, rfl, h⟩
  | cons c run =>
    refine ⟨part :: parts, rfl, .cons (.text ?_ ?_) h⟩
    · intro hempty
      simpa using congrArg String.toList hempty
    · rwa [String.toList_ofList]

/-- The pieces that are joined of the atoms of a body cover it, together with the part of the run
that is still open before it. The first `skip` characters belong to the hole read before. -/
theorem cover_join {skip here : Nat} {as : List Atom} (ha : atoms form skip here body = .ok as)
    (hhere : here + byteLength (body.take skip) = pos + byteLength part)
    (hrun : form.Reads part run.reverse) :
    ∃ parts, part ++ body.drop skip = parts.flatten ∧ Cover form pos (join run as) parts := by
  fun_induction atoms form skip here body generalizing pos part run as with
  | case1 =>
    obtain rfl := Except.ok.inj ha
    simpa [join] using cover_ofRun hrun .nil
  | case2 here c cs k ih =>
    rw [List.take_succ_cons, byteLength, ← Nat.add_assoc] at hhere
    exact ih ha hhere hrun
  | case3 => cases ha
  | case4 here c hescape e rest d hd ih =>
    obtain ⟨as, has, rfl⟩ := map_eq_ok.1 ha
    obtain ⟨hc, he⟩ := (Bool.and_eq_true _ _).mp hescape
    obtain rfl : c = '\\' := by simpa using hc
    obtain rfl : here = pos + byteLength part := by simpa [byteLength] using hhere
    have hwidth : byteLength ['\\', e] = 1 + e.utf8Size := rfl
    have hnext : pos + byteLength part + 1 + e.utf8Size = pos + byteLength (part ++ ['\\', e]) := by
      rw [byteLength_append, hwidth, Nat.add_assoc, Nat.add_assoc]
    obtain ⟨parts, hparts, hcover⟩ := ih has hnext (hrun.extend (.escape he hd .nil))
    exact ⟨parts, by simpa using hparts, hcover⟩
  | case5 => cases ha
  | case6 => cases ha
  | case7 here c cs _ hdollar h n hread ih =>
    obtain ⟨as, has, rfl⟩ := map_eq_ok.1 ha
    obtain ⟨hc, hf⟩ := (Bool.and_eq_true _ _).mp hdollar
    obtain rfl : c = '$' := by simpa using hc
    obtain rfl : here = pos + byteLength part := by simpa [byteLength] using hhere
    -- the hole closes the run, and behind it none is open
    have hnext : pos + byteLength part + 1 + byteLength (cs.take n) =
        pos + byteLength part + byteLength ('$' :: cs.take n) + byteLength [] := by
      rw [byteLength, byteLength, Nat.add_zero, ← Nat.add_assoc]
      rfl
    obtain ⟨parts, hparts, hcover⟩ : ∃ parts, [] ++ cs.drop n = parts.flatten ∧
        Cover form (pos + byteLength part + byteLength ('$' :: cs.take n)) (join [] as) parts :=
      ih has hnext .nil
    obtain ⟨all, hall, hcovers⟩ := cover_ofRun hrun (.cons (covers_read hf hread) hcover)
    refine ⟨all, ?_, hcovers⟩
    rw [← hall, List.flatten_cons, ← hparts, List.nil_append, List.cons_append,
      List.take_append_drop, List.drop_zero]
  | case8 here c cs hescape hdollar ih =>
    obtain ⟨as, has, rfl⟩ := map_eq_ok.1 ha
    have hreads : form.Reads [c] [c] := by
      refine .plain (fun hc => ?_) (fun hc => ?_) .nil
      · simpa [hc] using hescape
      · simpa [hc] using hdollar
    obtain rfl : here = pos + byteLength part := by simpa [byteLength] using hhere
    have hnext : pos + byteLength part + c.utf8Size = pos + byteLength (part ++ [c]) := by
      rw [byteLength_append, Nat.add_assoc]
      rfl
    obtain ⟨parts, hparts, hcover⟩ := ih has hnext (hrun.extend hreads)
    exact ⟨parts, by simpa using hparts, hcover⟩

theorem join_isChain (run : List Char) (as : List Atom) : (join run as).IsChain Apart := by
  induction as generalizing run with
  | nil =>
    rw [join, ofRun]
    split
    · exact .nil
    · exact .singleton _
  | cons a as ih =>
    cases a with
    | char c => exact ih (c :: run)
    | hole h =>
      have hhole : (hole h :: join [] as).IsChain Apart :=
        List.isChain_cons.2 ⟨fun _ _ => .inl rfl, ih []⟩
      rw [join, ofRun]
      split
      · exact hhole
      · refine List.isChain_cons.2 ⟨fun q hq => ?_, hhole⟩
        obtain rfl := Option.some.inj hq
        exact .inr rfl

end Piece

theorem decode_eq_ok {literal : String} {start : Nat} {form : StringForm} {d : Decoded}
    (ho : StringForm.opening? literal.toList = some form) (hd : decode literal start = .ok d) :
    d.form = form ∧ ∃ as, Piece.atoms form 0 (start + byteLength form.opener)
      (form.body literal.toList) = .ok as ∧ d.pieces = Piece.join [] as := by
  unfold decode at hd
  rw [ho, Option.getD_some] at hd
  dsimp only at hd
  split at hd
  · rename_i as has
    obtain rfl := Except.ok.inj hd
    exact ⟨rfl, as, has, rfl⟩
  · cases hd

namespace Token

/-- Every string that is lexed and then taken apart is covered by its pieces. Between the delimiters
of its form, one piece stands for each part of the body, in order and without a gap: no text is
empty, none stands beside another, quoted strings have no holes, and the raw form keeps its
characters. -/
theorem decode_covers {base start : Nat} {source : String} {t : Token} {d : Decoded}
    (ht : t ∈ (Lexed.ofString base source).tokens) (hk : t.kind.isString = true)
    (hd : decode t.text start = .ok d) :
    StringForm.opening? t.text.toList = some d.form ∧ t.kind = Lexeme.stringKind d.form ∧
    (∃ parts, t.text.toList = d.form.opener ++ (parts.flatten ++ d.form.closer) ∧
      Piece.Cover d.form (start + byteLength d.form.opener) d.pieces parts ∧
      (d.form = .multiline →
        ∀ s part, (.text s, part) ∈ d.pieces.zip parts → s.toList = part)) ∧
    d.pieces.IsChain Piece.Apart ∧
    (d.form = .double ∨ d.form = .single → ∀ p ∈ d.pieces, p.hole? = none) := by
  obtain ⟨_, _, _, _, hscans, -⟩ := Lexed.scans base source
  have hread := (hscans.mem ht).2
  obtain ⟨form, ho, hkind⟩ := hread.string hk
  obtain ⟨form', body, ho', htext⟩ := hread.literal hk
  obtain rfl : form' = form := Option.some.inj (ho'.symm.trans ho)
  obtain ⟨rfl, as, has, hpieces⟩ := decode_eq_ok ho hd
  have hbody : d.form.body t.word.text.toList = body := by rw [htext, d.form.body_closer]
  have has : Piece.atoms d.form 0 (start + byteLength d.form.opener) body = .ok as := hbody ▸ has
  obtain ⟨parts, hparts, hcover⟩ : ∃ parts, [] ++ body.drop 0 = parts.flatten ∧
      Piece.Cover d.form (start + byteLength d.form.opener) (Piece.join [] as) parts :=
    Piece.cover_join has rfl .nil
  rw [← hpieces] at hcover
  have hverbatim := fun hform : d.form = .multiline => hcover.verbatim (by rw [hform]; rfl)
  refine ⟨ho, hkind, ⟨parts, ?_, hcover, hverbatim⟩, ?_, ?_⟩
  · rw [← hparts, List.nil_append]
    exact htext
  · rw [hpieces]
    exact Piece.join_isChain [] as
  · rintro (hform | hform) <;> exact hcover.no_holes (by rw [hform]; rfl)

/-- Text with an escape, a name, text and a hole with braces, ten bytes into a source. -/
theorem decode_covers_mixed :
    ∃ t ∈ (Lexed.ofString 10 "f\"a\\n$x.y b$\x7b1 + c\x7d\"").tokens, t.kind.isString = true ∧
      ∃ d, decode t.text t.start = .ok d ∧
        d.pieces = [.text "a\n", .hole ⟨.name, "x.y", 15⟩, .text " b",
          .hole ⟨.expr, "1 + c", 21⟩] ∧
        ∃ parts, t.text.toList = d.form.opener ++ (parts.flatten ++ d.form.closer) ∧
          Piece.Cover d.form (t.start + byteLength d.form.opener) d.pieces parts := by
  have hl : (Lexed.ofString 10 "f\"a\\n$x.y b$\x7b1 + c\x7d\"").tokens =
      [⟨.formattedString, "f\"a\\n$x.y b$\x7b1 + c\x7d\"", 10, false⟩] := by rfl
  have ht := hl ▸ List.mem_singleton.2 rfl
  have hd : decode "f\"a\\n$x.y b$\x7b1 + c\x7d\"" 10 = .ok ⟨.formatted, [.text "a\n",
      .hole ⟨.name, "x.y", 15⟩, .text " b", .hole ⟨.expr, "1 + c", 21⟩]⟩ :=
    eq_ok_of_toOption (by decide +kernel)
  obtain ⟨-, -, ⟨parts, hparts, hcover, -⟩, -⟩ := decode_covers ht rfl hd
  exact ⟨_, ht, rfl, _, hd, rfl, parts, hparts, hcover⟩

end Token

end Script
