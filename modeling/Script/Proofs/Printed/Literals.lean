import Script.Proofs.Interpolation
import Script.Proofs.Printed.Names
import Script.Tree.Layout

/-!
String literals as they are written back. Every character that a form escapes is read back as
itself, and none of them ends the literal.
-/
namespace Script

open Chars Lexeme

namespace StringForm

variable {form : StringForm} {m : HoleMeasure} {c : Char} {cs r : List Char} {pos : Nat}

/-- A character is written with a backslash before what it is read back from, or as it is where it
begins neither an escape nor a closer nor a hole. -/
theorem escapeChar_cases (form : StringForm) (c : Char) :
    (∃ e, form.escapeChar c = ['\\', e] ∧ form.unescape? e = some c) ∨
      (form.escapeChar c = [c] ∧ c ≠ '\\' ∧ form.isQuote c = false ∧
        (c = '$' → form.hasHoles = false)) := by
  by_cases h1 : c = '\\'
  · exact .inl ⟨'\\', by simp [escapeChar, h1], by rw [h1]; rfl⟩
  by_cases h2 : c = '\x08'
  · exact .inl ⟨'b', by simp [escapeChar, h2], by rw [h2]; rfl⟩
  by_cases h3 : c = '\x0c'
  · exact .inl ⟨'f', by simp [escapeChar, h3], by rw [h3]; rfl⟩
  by_cases h4 : (c = '\n' && form != formattedTick) = true
  · have hc : c = '\n' := of_decide_eq_true (Bool.and_eq_true _ _ ▸ h4).1
    exact .inl ⟨'n', by simp [escapeChar, h1, h2, h3, h4], by rw [hc]; rfl⟩
  by_cases h5 : c = '\r'
  · exact .inl ⟨'r', by simp [escapeChar, h5], by rw [h5]; rfl⟩
  by_cases h6 : c = '\t'
  · exact .inl ⟨'t', by simp [escapeChar, h6], by rw [h6]; rfl⟩
  by_cases h7 : c = '\x0b'
  · exact .inl ⟨'v', by simp [escapeChar, h7], by rw [h7]; rfl⟩
  by_cases h8 : form.isQuote c = true
  · refine .inl ⟨c, by simp [escapeChar, h1, h2, h3, h4, h5, h6, h7, h8], ?_⟩
    cases form <;> simp [isQuote] at h8 <;> subst h8 <;> rfl
  by_cases h9 : (c = '$' && form.hasHoles) = true
  · obtain ⟨hc, hholes⟩ : c = '$' ∧ form.hasHoles = true := by simpa using h9
    refine .inl ⟨'$', by simp [escapeChar, h1, h2, h3, h4, h5, h6, h7, h8, h9], ?_⟩
    rw [hc, unescape?, if_pos hholes]
  · refine .inr ⟨by simp [escapeChar, h1, h2, h3, h4, h5, h6, h7, h8, h9], h1, by simpa using h8, ?_⟩
    simpa using h9

/-- Only the quote that a form escapes begins its closer. -/
theorem isQuote_of_closer (he : form.hasEscapes = true)
    (h : form.closer.isPrefixOf (c :: r) = true) : form.isQuote c = true := by
  rw [List.isPrefixOf_iff_prefix] at h
  cases form with
  | multiline => cases he
  | _ =>
    obtain ⟨rfl, -⟩ := List.cons_prefix_cons.1 h
    rfl

/-- The scanner steps over an escaped text. -/
theorem bodyLength_escape {n : Nat} (he : form.hasEscapes = true)
    (h : bodyLength form m 0 r = .ok n) :
    bodyLength form m 0 (form.escape cs ++ r) = .ok ((form.escape cs).length + n) := by
  rw [escape, if_pos he]
  induction cs with
  | nil => simpa using h
  | cons c cs ih =>
    rw [List.flatMap_cons, List.append_assoc]
    rcases form.escapeChar_cases c with ⟨e, hc, -⟩ | ⟨hc, hslash, hquote, hdollar⟩
    · have hcloser : ¬ form.closer.isPrefixOf ('\\' :: e :: (cs.flatMap form.escapeChar ++ r)) = true :=
        fun hp => by
          have hq := isQuote_of_closer he hp
          cases form <;> cases hq
      rw [hc, List.cons_append, List.cons_append, List.nil_append, bodyLength_zero, if_neg hcloser,
        if_pos (by simp [he]), bodyLength, ih]
      refine congrArg Except.ok ?_
      simp only [List.cons_append, List.nil_append, List.length_cons]
      omega
    · have hcloser : ¬ form.closer.isPrefixOf (c :: (cs.flatMap form.escapeChar ++ r)) = true :=
        fun hp => by simp [isQuote_of_closer he hp] at hquote
      rw [hc, List.cons_append, List.nil_append,
        bodyLength_plain hcloser (by simp [hslash]) (by simp +contextual [hdollar]), ih]
      refine congrArg Except.ok ?_
      simp only [List.cons_append, List.nil_append, List.length_cons]
      omega

/-- The decoder reads an escaped text back, character by character. -/
theorem atoms_escape {as : List Piece.Atom} (he : form.hasEscapes = true)
    (h : Piece.atoms form 0 (pos + byteLength (form.escape cs)) r = .ok as) :
    Piece.atoms form 0 pos (form.escape cs ++ r) = .ok (cs.map .char ++ as) := by
  rw [escape, if_pos he] at h ⊢
  induction cs generalizing pos with
  | nil => simpa [byteLength] using h
  | cons c cs ih =>
    rw [List.flatMap_cons, byteLength_append, ← Nat.add_assoc] at h
    rw [List.flatMap_cons, List.append_assoc]
    rcases form.escapeChar_cases c with ⟨e, hc, hread⟩ | ⟨hc, hslash, -, hdollar⟩
    · have hbytes : pos + byteLength (form.escapeChar c) = pos + 1 + e.utf8Size := by
        have : '\\'.utf8Size = 1 := rfl
        simp only [hc, byteLength]
        omega
      have hrest := ih (hbytes ▸ h)
      rw [hc, List.cons_append, List.cons_append, List.nil_append, Piece.atoms]
      simp only [he, decide_true, Bool.and_self, if_true, hread, hrest]
      rfl
    · have hbytes : pos + byteLength (form.escapeChar c) = pos + c.utf8Size := by
        simp only [hc, byteLength]
        omega
      have hrest := ih (hbytes ▸ h)
      have hplain : ¬ (decide (c = '$') && form.hasHoles) = true := by
        simpa using hdollar
      rw [hc, List.cons_append, List.nil_append, Piece.atoms_zero, if_neg (by simp [hslash]),
        if_neg hplain, hrest]
      rfl

/-- Whether a form can hold these characters. All forms with escapes hold any; the form without
them has no way to write a dollar sign that begins no hole, nor a backtick that would join its
closer. -/
def Keeps (form : StringForm) (cs : List Char) : Prop :=
  form = .multiline → '$' ∉ cs ∧ ¬ form.closer <:+: cs ∧ cs.getLast? ≠ some '`'

theorem keeps_of_hasEscapes (he : form.hasEscapes = true) (cs : List Char) : form.Keeps cs := by
  rintro rfl
  cases he

theorem escape_raw (he : form.hasEscapes = false) (cs : List Char) : form.escape cs = cs := by
  rw [escape, if_neg (by simp [he])]

theorem eq_multiline_of_raw (he : form.hasEscapes = false) : form = .multiline := by
  cases form <;> first | rfl | cases he

/-- No closer begins in a text that is kept: one that ran on from the text into the closer behind it
would be all backticks up to there. -/
theorem not_closer_of_keeps (hk : Keeps .multiline (c :: cs)) :
    ¬ multiline.closer.isPrefixOf (c :: (cs ++ multiline.closer)) = true := by
  obtain ⟨-, hinfix, hlast⟩ := hk rfl
  rw [List.isPrefixOf_iff_prefix]
  intro hp
  rcases List.prefix_or_prefix_of_prefix hp (List.prefix_append (c :: cs) _) with h | h
  · exact hinfix h.isInfix
  · have hticks : ∀ d ∈ c :: cs, d = '`' := by
      intro d hd
      have := h.subset hd
      simpa [closer] using this
    exact hlast ((List.getLast?_eq_some_getLast (List.cons_ne_nil c cs)).trans
      (congrArg some (hticks _ (List.getLast_mem _))))

theorem Keeps.tail (hk : Keeps .multiline (c :: cs)) : Keeps .multiline cs := by
  intro _
  obtain ⟨hdollar, hinfix, hlast⟩ := hk rfl
  refine ⟨fun h => hdollar (.tail _ h), fun h => hinfix (h.trans (List.suffix_cons c cs).isInfix),
    fun h => hlast ?_⟩
  cases cs with
  | nil => cases h
  | cons d cs => rwa [List.getLast?_cons_cons]

/-- The scanner finds the closer of a literal right behind the text that is written in it. -/
theorem bodyLength_text (hk : form.Keeps cs) :
    bodyLength form m 0 (form.escape cs ++ form.closer) =
      .ok ((form.escape cs).length + form.closer.length) := by
  cases he : form.hasEscapes with
  | true => exact bodyLength_escape he (bodyLength_closer (List.append_nil _).symm)
  | false =>
    obtain rfl := eq_multiline_of_raw he
    rw [escape_raw he]
    induction cs with
    | nil => simpa using bodyLength_closer (m := m) (List.append_nil _).symm
    | cons c cs ih =>
      have hdollar : c ≠ '$' := fun hc => (hk rfl).1 (hc ▸ List.mem_cons_self ..)
      rw [List.cons_append,
        bodyLength_plain (not_closer_of_keeps hk) (by simp [he]) (by simp [hdollar]), ih hk.tail]
      refine congrArg Except.ok ?_
      simp only [List.length_cons]
      omega

/-- The decoder reads the characters of a text from the text as it is written. -/
theorem atoms_text (hk : form.Keeps cs) (pos : Nat) :
    Piece.atoms form 0 pos (form.escape cs) = .ok (cs.map .char) := by
  cases he : form.hasEscapes with
  | true =>
    have h : Piece.atoms form 0 pos (form.escape cs ++ []) = .ok (cs.map .char ++ []) :=
      atoms_escape he rfl
    rwa [List.append_nil, List.append_nil] at h
  | false =>
    obtain rfl := eq_multiline_of_raw he
    rw [escape_raw he]
    induction cs generalizing pos with
    | nil => rfl
    | cons c cs ih =>
      have hdollar : c ≠ '$' := fun hc => (hk rfl).1 (hc ▸ List.mem_cons_self ..)
      rw [Piece.atoms_zero, if_neg (by simp [he]), if_neg (by simp [hdollar]), ih _ hk.tail]
      rfl

/-- The form of a literal is read off its opener. -/
theorem opening?_literal {body : List Char} (hq : form = .formatted → body.head? ≠ some '"') :
    opening? (form.opener ++ (body ++ form.closer)) = some form := by
  cases form with
  | formatted =>
    have hbody := hq rfl
    simp only [opener, closer, List.cons_append, List.nil_append]
    refine opening?_eq_some.2 ⟨rfl, fun hp => ?_, rfl⟩
    cases body with
    | nil => exact absurd hp.length_le (by simp)
    | cons d body =>
      simp only [List.cons_append, List.cons_prefix_cons] at hp
      exact hbody (congrArg some hp.2.1.symm)
  | _ => exact opening?_eq_some.2 (by simp [Begins])

end StringForm

/-- A literal is read as a whole if the scanner finds the end of its body. -/
theorem Word.readable_literal {form : StringForm} {body : List Char}
    (hq : form = .formatted → body.head? ≠ some '"')
    (h : bodyLength form holeLength 0 (body ++ form.closer) =
      .ok (body.length + form.closer.length)) :
    Word.Readable ⟨stringKind form, String.ofList (form.opener ++ (body ++ form.closer))⟩ := by
  have ho := StringForm.opening?_literal hq
  have hpos := form.opener_pos
  generalize hcs : form.opener ++ (body ++ form.closer) = cs at ho
  cases cs with
  | nil => simp_all
  | cons c cs =>
    have hdrop : (c :: cs).drop form.opener.length = body ++ form.closer := by
      rw [← hcs, List.drop_left]
    have hb : Numeral.begins (c :: cs) = false := by
      cases form <;>
      · obtain ⟨rfl, -⟩ := List.cons.inj hcs
        rfl
    have hscan := scan_of_reads (.string (m := holeLength) hb ho (by rw [hdrop]; exact h))
    have hlen := congrArg List.length hcs
    refine ⟨c, cs, String.toList_ofList, ?_⟩
    simp only [List.length_append, List.length_cons] at hlen
    rwa [show form.opener.length - 1 + (body.length + form.closer.length) = cs.length by omega]
      at hscan

/-- A literal is taken apart by taking its body apart. -/
theorem decode_literal {form : StringForm} {body : List Char} {start : Nat}
    {as : List Piece.Atom} (hq : form = .formatted → body.head? ≠ some '"')
    (h : Piece.atoms form 0 (start + byteLength form.opener) body = .ok as) :
    decode (String.ofList (form.opener ++ (body ++ form.closer))) start =
      .ok ⟨form, Piece.join [] as⟩ := by
  simp only [decode, String.toList_ofList, StringForm.opening?_literal hq, Option.getD_some,
    StringForm.body_closer, h]

/-- The characters between two holes are one piece of text. -/
theorem Piece.join_text (run cs : List Char) (as : List Atom) :
    join run (cs.map .char ++ as) = join (cs.reverse ++ run) as := by
  induction cs generalizing run with
  | nil => rfl
  | cons c cs ih => rw [List.map_cons, List.cons_append, join, ih]; simp

namespace StringLiteral

/-- A literal without holes. An empty text is no part of it. -/
def IsText (l : StringLiteral) (text : String) : Prop :=
  l.parts = if text.isEmpty then [] else [.text text]

variable {l : StringLiteral} {text : String}

theorem print_text (h : l.IsText text) (indent : Nat) :
    l.print indent =
      String.ofList (l.form.opener ++ (l.form.escape text.toList ++ l.form.closer)) := by
  obtain ⟨form, parts, span⟩ := l
  simp only [IsText] at h
  rw [StringLiteral.print, String.ofList_append, String.ofList_append, String.append_assoc]
  subst h
  split
  · rename_i hempty
    obtain rfl : text = "" := by simpa using hempty
    simp [StringPart.printEach, StringForm.escape]
  · simp [StringPart.printEach, StringPart.print]

theorem escape_head (form : StringForm) (cs : List Char) :
    form = .formatted → (form.escape cs).head? ≠ some '"' := by
  rintro rfl hhead
  cases cs with
  | nil => simp [StringForm.escape] at hhead
  | cons c cs =>
    simp only [StringForm.escape, StringForm.hasEscapes, if_true, List.flatMap_cons] at hhead
    rcases StringForm.formatted.escapeChar_cases c with ⟨e, hc, -⟩ | ⟨hc, -, hquote, -⟩
    · rw [hc] at hhead
      cases hhead
    · rw [hc] at hhead
      obtain rfl := Option.some.inj hhead
      cases hquote

theorem readable_text (h : l.IsText text) (hk : l.form.Keeps text.toList) (gap : List Char)
    (indent : Nat) : (l.chunk StringLiteral.print gap indent).word.Readable := by
  simp only [StringLiteral.chunk, print_text h]
  exact Word.readable_literal (escape_head _ _) (StringForm.bodyLength_text hk)

/-- A literal without holes is taken apart into its text. -/
theorem decode_text (h : l.IsText text) (hk : l.form.Keeps text.toList) (indent start : Nat) :
    decode (l.print indent) start = .ok ⟨l.form, if text.isEmpty then [] else [.text text]⟩ := by
  have hempty : text.toList.reverse.isEmpty = text.isEmpty := by
    rw [List.isEmpty_reverse]
    exact Bool.eq_iff_iff.2 (by simp)
  have hpieces : Piece.join [] (text.toList.map .char) =
      if text.isEmpty then [] else [.text text] := by
    rw [← List.append_nil (text.toList.map Piece.Atom.char), Piece.join_text, List.append_nil,
      Piece.join, Piece.ofRun, hempty, List.reverse_reverse, String.ofList_toList]
  rw [print_text h, ← hpieces]
  exact decode_literal (escape_head _ _) (StringForm.atoms_text hk _)

/-- A literal without holes is written back in its form, with its text. -/
theorem written_text (h : l.IsText text) (hk : l.form.Keeps text.toList) (rules : Rules)
    (gap : List Char) (indent pos : Nat) : ∃ l' : StringLiteral,
      (l'.mapSpans fun _ => default) = (l.mapSpans fun _ => default) ∧
      l'.Written rules ((l.chunk StringLiteral.print gap indent).token pos) := by
  generalize ht : (l.chunk StringLiteral.print gap indent).token pos = t
  have htext : t.text = l.print indent := by
    rw [← ht]
    rfl
  have hdecode := decode_text h hk indent t.start
  rw [← htext] at hdecode
  have hparts : StringPart.EachWritten rules
      (if text.isEmpty then [] else [.text text]) l.parts := by
    rw [show l.parts = _ from h]
    split
    · exact .nil
    · exact .cons .text .nil
  exact ⟨⟨l.form, l.parts, t.span⟩, by cases l; simp only [mapSpans], .mk hdecode hparts⟩

/-- The printed form of a text, in any form that can hold it, is one string token up to the end of
the text, and taking this token apart gives the text back. -/
theorem tokenize_text (h : l.IsText text) (hk : l.form.Keeps text.toList) (indent : Nat) :
    tokenize (l.print indent) = .ok [⟨stringKind l.form, l.print indent, 0, false⟩,
        Token.endAt (l.print indent).utf8ByteSize false] ∧
      ∀ start, decode (l.print indent) start =
        .ok ⟨l.form, if text.isEmpty then [] else [.text text]⟩ := by
  refine ⟨?_, decode_text h hk indent⟩
  have hread : ∀ ch ∈ [l.chunk StringLiteral.print [] indent], ch.word.Readable :=
    List.forall_mem_singleton.2 (readable_text h hk [] indent)
  have hspell : (l.print indent).toList = Chunk.spell [l.chunk StringLiteral.print [] indent] := by
    simp [Chunk.spell, chunk]
  have hlexed := Chunk.lexed 0 hspell rfl hread
  rw [tokenize, hlexed, Nat.zero_add]
  rfl

/-- Lone backticks, a backslash and a quote in the raw form. -/
theorem tokenize_text_raw :
    IsText ⟨.multiline, [.text "``\\\""], default⟩ "``\\\"" ∧
      StringForm.multiline.Keeps "``\\\"".toList ∧
      tokenize "`````\\\"```" = .ok [⟨.rawString, "`````\\\"```", 0, false⟩, Token.endAt 10 false] ∧
      ∀ start, decode "`````\\\"```" start = .ok ⟨.multiline, [.text "``\\\""]⟩ := by
  have h : IsText ⟨.multiline, [.text "``\\\""], default⟩ "``\\\"" :=
    (if_neg (by decide)).symm
  have hk : StringForm.multiline.Keeps "``\\\"".toList := fun _ => by decide
  exact ⟨h, hk, tokenize_text h hk 0⟩

end StringLiteral

end Script
