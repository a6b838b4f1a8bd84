import Script.Proofs.Abreast.Program
import Script.Proofs.Boundaries.Statement

/-!
Errors that come early. An error that is found before the last token of a text is found again in
every text that goes on from there. A lexical error ends the tokens of a text before its end, so
what is found near there may be found only because nothing follows.
-/
namespace Script

open Chars Script.Parser Seam

variable {pos : Nat} {newline after : Bool} {cs r : List Char} {ts : List Token}

/-- Where a line break was seen before, the first token begins a line. -/
theorem Scans.first_newline (h : Scans pos newline cs r ts after) (hn : newline = true) :
    ∀ t ∈ ts.head?, t.newlineBefore = true := by
  induction h with
  | done => simp
  | blank _ _ ih => exact ih (by simp [hn])
  | comment _ _ _ ih => exact ih (by simp [hn])
  | token => simpa using hn

namespace Lexed

/-- The tokens of a text that goes on after a line break. -/
theorem ofString_break {a b : String} {last : Token} (h : (ofString 0 a).last = .ok last) :
    ∃ us, (ofString 0 (a ++ "\n" ++ b)).tokens = (ofString 0 a).tokens ++ us ∧
      (∀ u ∈ us.head?, u.newlineBefore = true) ∧
      ∀ x, (ofString 0 (a ++ "\n" ++ b)).last = .error x → a.utf8ByteSize < x.span.start := by
  have hlexed : ofString 0 a = ⟨(ofString 0 a).tokens, .ok last⟩ := by rw [← h]
  obtain ⟨middle, hscans, -⟩ := lexed_iff.1 hlexed
  have hseam : Milder [] ('\n' :: b.toList) := by
    intro d hd
    exact .inr (Option.some.inj hd).symm
  have hfinish := (hscans.milder hseam).finish
  rw [Lexed.scanFrom_blank (by decide), byteLength_toList] at hfinish
  have htext : (a ++ "\n" ++ b).toList = a.toList ++ '\n' :: b.toList := by simp
  obtain ⟨pre, rest, after, hsplit, hrest, hstops⟩ :=
    @scans_upto_error _ (0 + a.utf8ByteSize + '\n'.utf8Size) (middle || '\n' == '\n') b.toList
      (Nat.le_refl _)
  rw [ofString, ofChars, htext, hfinish]
  refine ⟨_, rfl, hrest.first_newline (by simp), fun x hx => ?_⟩
  rw [hx] at hstops
  cases hstops
  have := '\n'.utf8Size_pos
  dsimp only
  omega

end Lexed

/-- What begins a new line, or ends the text, continues nothing. -/
theorem not_continues_line {u : Token} {us : List Token} {kind : TokenKind}
    (hk : kind ≠ .endOfText) (hu : u.kind = .endOfText)
    (hus : ∀ t ∈ us.head?, t.newlineBefore = true) : ¬ Continues kind (us ++ [u]) := by
  rintro ⟨t, ht, hcont⟩
  rw [continuesWith, Bool.and_eq_true, beq_iff_eq, Bool.not_eq_true'] at hcont
  cases us with
  | nil =>
    obtain rfl := Option.some.inj ht
    exact hk (hcont.1.symm.trans hu)
  | cons v us =>
    obtain rfl := Option.some.inj ht
    exact absurd (hus v rfl) (by simp [hcont.2])

/-- An end token provokes nothing. -/
theorem Seam.Provoked.of_end {us : List Token} {u : Token} {e : ParseError}
    (h : Provoked ts (us ++ [u]) e) (hu : u.kind = .endOfText) : Provoked ts us e := by
  have hhead : ∀ v ∈ (us ++ [u]).head?, v.kind ≠ .endOfText → v ∈ us.head? := by
    intro v hv hne
    cases us with
    | nil =>
      obtain rfl := Option.some.inj hv
      exact absurd hu hne
    | cons w us => exact hv
  have hcont : Continues .ident (us ++ [u]) → Continues .ident us := by
    rintro ⟨t, ht, hcont⟩
    refine ⟨t, hhead t ht ?_, hcont⟩
    rw [continuesWith_kind hcont]
    decide
  cases h with
  | point ht hd hj => exact .point ht hd (hcont hj)
  | word ht hr =>
    obtain ⟨v, hv, hnext⟩ := ht.next
    refine .word ⟨ht.behind, ht.free, v, hhead v hv ?_, hnext⟩ hr
    rcases hnext with hk | hw
    · rw [hk]
      decide
    · rw [Token.kind_of_keyword? hw]
      decide
  | entry hs hc =>
    obtain ⟨vs, t, hstop, hts⟩ := hs
    obtain ⟨names, colon, rest, hmore, hcolon, hnames⟩ := hc
    refine .entry ⟨vs, t, hstop, hts.imp_right ?_⟩ ?_
    · rintro ⟨dot, htokens, hdot, hj⟩
      exact ⟨dot, htokens, hdot, hcont hj⟩
    · rcases List.eq_nil_or_concat rest with rfl | ⟨rest, v, rfl⟩
      · -- The colon itself would be the end token.
        obtain ⟨-, hlast⟩ := List.append_inj' hmore rfl
        obtain rfl := (List.cons.inj hlast).1
        cases hcolon.symm.trans hu
      · rw [List.concat_eq_append, ← List.cons_append, ← List.append_assoc] at hmore
        exact ⟨names, colon, rest, (List.append_inj' hmore rfl).1, hcolon, hnames⟩

/-- What stops with a list stops where its last token does, if no name goes on there. -/
theorem Seam.StopsLast.eq {us : List Token} {t : Token} {stop : Nat}
    (h : StopsLast (ts ++ [t]) us stop) (hm : ¬ Continues .ident us) : stop = t.stop := by
  obtain ⟨vs, v, rfl, hts | ⟨_, _, _, hj⟩⟩ := h
  · obtain ⟨-, hlast⟩ := List.append_inj' hts rfl
    rw [(List.cons.inj hlast).1]
  · exact absurd hj hm

/-- What is lost at the end of a list reaches to the end of its last token, if no name goes on
there. -/
theorem Seam.Lost.stop_le {σ : Seam} {e : ParseError} {t : Token} (h : σ.Lost e)
    (ht : σ.tokens = ts ++ [t]) (hm : ¬ Continues .ident σ.more) (hl : t.stop ≤ σ.last.start) :
    t.stop ≤ e.span.stop := by
  rcases h.lost with hspan | hprovoked
  · rw [hspan]
    exact Nat.le_trans hl σ.last.start_le_stop
  · rw [ht] at hprovoked
    cases hprovoked with
    | point _ _ hj => exact absurd hj hm
    | @word v hloop =>
      obtain ⟨us, loop, hus, -⟩ := hloop.behind
      have hsplit : ts ++ [t] = (us ++ [loop]) ++ [v] := by rw [hus, List.append_assoc]; rfl
      obtain ⟨-, hlast⟩ := List.append_inj' hsplit rfl
      exact Nat.le_of_eq (congrArg Token.stop (List.cons.inj hlast).1)
    | entry hs => exact Nat.le_of_eq (hs.eq hm).symm

theorem Program.Boundary.le {source : String} {pos : Nat} (h : Boundary source pos) :
    pos ≤ source.utf8ByteSize := by
  obtain ⟨pre, post, hsource, rfl⟩ := h
  rw [← byteLength_toList, hsource, byteLength_append]
  exact Nat.le_add_right _ _

namespace Program

/-- An error that ends before the last token of a text begins is final: whatever follows on new
lines, lexical errors included, the answer stays the same. -/
theorem parse_early {source : String} {ts : List Token} {t last : Token} {e : ParseError}
    (hl : tokenize source = .ok (ts ++ [t, last])) (he : parse source = .error e)
    (ht : e.span.stop ≤ t.start) (more : String) :
    parse (source ++ "\n" ++ more) = .error e := by
  obtain ⟨last', hlast, htokens⟩ := tokenize_ok hl
  rw [show ts ++ [t, last] = ts ++ [t] ++ [last] by simp] at htokens
  obtain ⟨htokens, -⟩ := List.append_inj' htokens rfl
  obtain ⟨us, hwhole, hline, hlexical⟩ := Lexed.ofString_break (b := more) hlast
  obtain ⟨c, hread⟩ := read_of_ofLexed_error hlast he
  obtain ⟨n, hkept⟩ := read_cut hwhole
  have hspan := parse_error_span he
  have hmem : t ∈ (Lexed.ofString 0 source).tokens := by simp [← htokens]
  have hsize := (Lexed.scanFrom_size 0 0 false source.toList).2 t hmem
  have hends : ¬ Continues .ident (us ++ [(Lexed.ofString 0 (source ++ "\n" ++ more)).endToken]) :=
    not_continues_line (by decide) (Lexed.endToken_kind _ _) hline
  rw [hread] at hkept
  generalize hd : read (Lexed.ofString 0 (source ++ "\n" ++ more)).cursor = o at hkept
  cases hkept with
  | error hlike =>
    obtain rfl := Places.like_same_error hlike
    refine ofLexed_of_error hd fun x hx => ?_
    have := hspan.le
    have := hspan.stop.le
    have := hlexical x hx
    omega
  | gone hgone =>
    cases hgone with
    | error hlost =>
      have hlate := hlost.stop_le htokens.symm hends (Lexed.stop_le_endToken hmem)
      rw [Token.stop] at hlate
      omega
  | late hlate =>
    have hstops := hlate.stops
    rw [show (cut _ _ us).tokens = ts ++ [t] from htokens.symm] at hstops
    have hstop := hstops.eq hends
    rw [Token.stop] at hstop
    omega

theorem parse_early_binding : parse ("var = 1\nx" ++ "\n" ++ "\"open") =
    .error ⟨.unexpectedToken (.token .ident) "'='", ⟨4, 5⟩⟩ := by
  have hl : tokenize "var = 1\nx" = .ok ([⟨.ident, "var", 0, false⟩, ⟨.assign, "=", 4, false⟩,
      ⟨.number .int, "1", 6, false⟩] ++ [⟨.ident, "x", 8, true⟩, .endAt 9 false]) :=
    eq_ok_of_toOption (by decide +kernel)
  have he : parse "var = 1\nx" = .error ⟨.unexpectedToken (.token .ident) "'='", ⟨4, 5⟩⟩ :=
    eq_error_of_failure? (by decide +kernel)
  exact parse_early hl he (by decide) "\"open"

/-- Where the tokens up to a lexical error go on to an accepted text, the answer is the lexical error,
unless the end of the tokens provoked another one before it, where the accepted text goes on
otherwise. -/
theorem parse_completed {source whole : String} {x : LexError} {us : List Token} {p : Program}
    (hx : tokenize source = .error x) (hp : parse whole = .ok p)
    (hw : (Lexed.ofString 0 whole).tokens = (Lexed.ofString 0 source).tokens ++ us) :
    parse source = .error x.toParseError ∨ ∃ e, parse source = .error e ∧
      e.span.start < x.span.start ∧ Provoked (Lexed.ofString 0 source).tokens us e := by
  have hlast := tokenize_error hx
  obtain ⟨d, hd⟩ := read_of_ofLexed_ok hp
  obtain ⟨n, hkept⟩ := read_cut hw
  rw [hd] at hkept
  have hlexical : (∀ e c, read (Lexed.ofString 0 source).cursor = .error e c →
      x.span.start ≤ e.span.start) → parse source = .error x.toParseError :=
    ofLexed_of_lexical hlast
  cases hread : read (Lexed.ofString 0 source).cursor with
  | ok q c => exact .inl (hlexical (by simp [hread]))
  | error e c =>
    have hall : x.span.start ≤ e.span.start → parse source = .error x.toParseError := by
      intro hle
      refine hlexical fun f c' hf => ?_
      rw [hread] at hf
      cases hf
      exact hle
    rw [hread] at hkept
    cases hkept with
    | gone hgone =>
      cases hgone with
      | error hlost =>
        rcases hlost.lost with hspan | hprovoked
        · refine .inl (hall ?_)
          have hend : (cut source whole us).last.start = x.span.start := by
            show (Lexed.ofString 0 source).endToken.start = _
            rw [Lexed.endToken, hlast]
            rfl
          rw [hspan, ← hend]
          exact Nat.le_refl _
        · rcases Nat.lt_or_ge e.span.start x.span.start with hlt | hge
          · refine .inr ⟨e, ofLexed_of_error hread fun y hy => ?_, hlt,
              hprovoked.of_end (Lexed.endToken_kind 0 whole)⟩
            rw [hlast] at hy
            exact Except.error.inj hy ▸ hlt
          · exact .inl (hall hge)

theorem parse_completed_name :
    parse "a = `" = .error (LexError.toParseError ⟨.unrecognizedCharacter, ⟨4, 5⟩⟩) ∨
      ∃ e, parse "a = `" = .error e ∧ e.span.start < 4 ∧
        Provoked [⟨.ident, "a", 0, false⟩, ⟨.assign, "=", 2, false⟩] [⟨.ident, "b", 4, false⟩] e := by
  have hx : tokenize "a = `" = .error ⟨.unrecognizedCharacter, ⟨4, 5⟩⟩ :=
    eq_error_of_failure? (by decide +kernel)
  obtain ⟨p, hp⟩ : ∃ p, parse "a = b" = .ok p := exists_of_isOk (by decide +kernel)
  have htokens : (Lexed.ofString 0 "a = `").tokens =
      [⟨.ident, "a", 0, false⟩, ⟨.assign, "=", 2, false⟩] := by decide +kernel
  have hw : (Lexed.ofString 0 "a = b").tokens =
      (Lexed.ofString 0 "a = `").tokens ++ [⟨.ident, "b", 4, false⟩] := by decide +kernel
  rw [← htokens]
  exact parse_completed hx hp hw

/-- A lexical error after `pre` is the answer if `pre` can be completed by `t`. -/
def AnswersLexical (pre rest t : String) : Prop :=
  ∀ x p, tokenize (pre ++ rest) = .error x → x.span.start = pre.utf8ByteSize →
    parse (pre ++ t) = .ok p → parse (pre ++ rest) = .error x.toParseError

theorem not_answersLexical {pre rest t : String} {x : LexError} {e : ParseError}
    (hx : tokenize (pre ++ rest) = .error x) (hL : x.span.start = pre.utf8ByteSize)
    (hp : (parse (pre ++ t)).isOk = true) (he : parse (pre ++ rest) = .error e)
    (hne : e ≠ x.toParseError) : ¬ AnswersLexical pre rest t := by
  intro h
  obtain ⟨p, hp⟩ := exists_of_isOk hp
  exact hne (Except.error.inj (he.symm.trans (h x p hx hL hp)))

/-- Each way in which the end of the tokens provokes an error occurs, and so does a completion that
joins the last token. -/
theorem lexical_hidden :
    ¬ AnswersLexical "a." "`" "b" ∧ ¬ AnswersLexical "for if " "`" "in xs \x7b \x7d" ∧
      ¬ AnswersLexical "node N() \x7b a " "`" ": 1 \x7d" ∧
      ¬ AnswersLexical "node N() \x7b a." "`" "b: 1 \x7d" ∧ ¬ AnswersLexical "1=" "`" "= 2" := by
  refine ⟨?_, ?_, ?_, ?_, ?_⟩
  · exact @not_answersLexical _ _ _ ⟨.unrecognizedCharacter, ⟨2, 3⟩⟩
      ⟨.unexpectedToken (.itemEnd [.semicolon] .endOfText) "'.'", ⟨1, 2⟩⟩
      (eq_error_of_failure? (by decide +kernel)) rfl (by decide +kernel)
      (eq_error_of_failure? (by decide +kernel)) (by decide)
  · exact @not_answersLexical _ _ _ ⟨.unrecognizedCharacter, ⟨7, 8⟩⟩
      ⟨.unexpectedToken .expression "'if'", ⟨4, 6⟩⟩
      (eq_error_of_failure? (by decide +kernel)) rfl (by decide +kernel)
      (eq_error_of_failure? (by decide +kernel)) (by decide)
  · exact @not_answersLexical _ _ _ ⟨.unrecognizedCharacter, ⟨13, 14⟩⟩ ⟨.invalidNodeEntry, ⟨11, 12⟩⟩
      (eq_error_of_failure? (by decide +kernel)) rfl (by decide +kernel)
      (eq_error_of_failure? (by decide +kernel)) (by decide)
  · exact @not_answersLexical _ _ _ ⟨.unrecognizedCharacter, ⟨13, 14⟩⟩ ⟨.invalidNodeEntry, ⟨11, 12⟩⟩
      (eq_error_of_failure? (by decide +kernel)) rfl (by decide +kernel)
      (eq_error_of_failure? (by decide +kernel)) (by decide)
  · exact @not_answersLexical _ _ _ ⟨.unrecognizedCharacter, ⟨2, 3⟩⟩
      ⟨.invalidAssignTarget, ⟨0, 1⟩⟩
      (eq_error_of_failure? (by decide +kernel)) rfl (by decide +kernel)
      (eq_error_of_failure? (by decide +kernel)) (by decide)

end Program

end Script
