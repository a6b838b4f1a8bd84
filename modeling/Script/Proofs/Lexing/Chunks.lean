import Mathlib.Data.List.TakeWhile
import Script.Proofs.Lexing.Tokens

/-!
Chunks as a text. Where two words touch, the second must not go on with the first; between all
others stands a blank. The text of chunks that are set in this way is read as the tokens of these
chunks, whatever calm text follows.
-/
namespace Script

open Chars Lexeme

namespace TokenKind

/-- The kinds whose words begin with a calm character. -/
def isCalm (k : TokenKind) : Bool :=
  [comma, semicolon, colon, openParen, closeParen, closeBracket, closeBrace].contains k

/-- The kinds with which an expression or a statement begins. -/
def leads : TokenKind → Bool
  | ident | dot | bang | minus | plus | openParen | openBrace | openBracket => true
  | number _ | plainString | rawString | formattedString => true
  | _ => false

/-- The signs and brackets right after which an expression may begin. -/
def bears (k : TokenKind) : Bool := k.isOpener || [bang, minus, plus].contains k

/-- Whether a word of kind `k'` may stand right after one of kind `k`. -/
def touches (k k' : TokenKind) : Bool :=
  k'.isCalm || (k.bears && k'.leads) || (k == dot && k' == ident) || (k == ident && k' == dot)

/-- Whether a token of this kind stays what it is before this character. -/
def endsAt (k : TokenKind) (d : Char) : Bool :=
  match k with
  | openParen | openBrace | openBracket | plus => true
  | bang => d != '='
  | minus => d != '>'
  | dot => isIdentStart d
  | ident => d == '.'
  | _ => false

end TokenKind

namespace Word.Readable

variable {w : Word} {c : Char} {cs r : List Char}

theorem scan (h : w.Readable) (hw : w.text.toList = c :: cs) :
    Lexeme.scan holeLength c cs = .ok (.token w.kind, cs.length) := by
  obtain ⟨c', cs', htext, hscan⟩ := h
  obtain ⟨rfl, rfl⟩ := List.cons.inj (hw.symm.trans htext)
  exact hscan

theorem first_calm (h : w.Readable) (hw : w.text.toList = c :: cs) (hk : w.kind.isCalm = true) :
    Chars.isCalm c = true := by
  have hsymbol : ∀ k ∈ [TokenKind.comma, .semicolon, .colon, .openParen, .closeParen, .closeBracket,
      .closeBrace], ∃ s, k.symbolText? = some s ∧ s.toList.head?.all Chars.isCalm = true := by
    decide
  obtain ⟨s, hs, hcalm⟩ := hsymbol w.kind (by simpa [TokenKind.isCalm] using hk)
  rwa [← h.symbol hs, hw] at hcalm

/-- No expression begins with a character that goes on with a sign. -/
theorem first_leads (h : w.Readable) (hw : w.text.toList = c :: cs) (hk : w.kind.leads = true) :
    c ≠ '=' ∧ c ≠ '>' := by
  have hscan := h.scan hw
  generalize w.kind = k at hk hscan
  generalize cs.length = n at hscan
  cases reads_of_scan hscan with
  | number hb =>
    constructor <;>
    · rintro rfl
      cases hb
  | string hb ho =>
    constructor <;>
    · rintro rfl
      simp [StringForm.opening?_cons] at ho
  | ident ho hc =>
    constructor <;>
    · rintro rfl
      exact absurd hc (by decide)
  | symbol _ _ _ _ hs =>
    constructor <;>
    · rintro rfl
      unfold symbol? at hs
      split at hs <;> rename_i hcons <;> first
        | cases hs; done
        | exact absurd (List.cons.inj hcons).1 (by decide)
        | (obtain ⟨rfl, -⟩ := Prod.mk.inj (Option.some.inj hs); cases hk)

theorem first_ident (h : w.Readable) (hw : w.text.toList = c :: cs) (hk : w.kind = .ident) :
    isIdentStart c = true ∧ ∀ d ∈ cs, isIdentPart d = true := by
  have hscan := h.scan hw
  rw [hk] at hscan
  generalize hn : cs.length = n at hscan
  generalize hi : TokenKind.ident = k at hscan
  cases reads_of_scan hscan with
  | number => cases hi
  | @string form => cases form <;> cases hi
  | symbol _ _ _ _ hs =>
    have := (symbol?_kind hs).2.1
    exact absurd hi.symm this
  | ident ho hc =>
    have htake := (List.takeWhile_prefix (l := cs) isIdentPart).eq_of_length hn.symm
    exact ⟨hc, List.takeWhile_eq_self_iff.1 htake⟩

/-- The first character of a word that may touch one of kind `k` leaves that one as it is. -/
theorem first_touches (h : w.Readable) (hw : w.text.toList = c :: cs) {k : TokenKind}
    (hk : k.touches w.kind = true) : Chars.isCalm c = true ∨ k.endsAt c = true := by
  simp only [TokenKind.touches, Bool.or_eq_true, Bool.and_eq_true, beq_iff_eq] at hk
  obtain ((hk | ⟨hbears, hleads⟩) | ⟨rfl, hk⟩) | ⟨rfl, hk⟩ := hk
  · exact .inl (h.first_calm hw hk)
  · obtain ⟨heq, hgt⟩ := h.first_leads hw hleads
    right
    cases k <;> simp_all [TokenKind.bears, TokenKind.isOpener, TokenKind.endsAt]
  · exact .inr (h.first_ident hw hk).1
  · right
    have htext : w.text = "." := h.symbol (by rw [hk]; rfl)
    rw [htext] at hw
    obtain ⟨rfl, -⟩ := List.cons.inj hw
    rfl

/-- A sign of one character that is told from a longer one by the next character at most. -/
theorem scan_sign {k : TokenKind} {d : Char} (hd : k.endsAt d = true) (hk : k ≠ .ident)
    (r : List Char) : ∃ c, k.symbolText? = some (String.ofList [c]) ∧
      Lexeme.scan holeLength c (d :: r) = .ok (.token k, 0) := by
  have hsign : ∀ c, c ∈ ['(', '{', '[', '+', '!', '-'] → symbol? (c :: d :: r) = some (k, 1) →
      Lexeme.scan holeLength c (d :: r) = .ok (.token k, 0) := by
    intro c hc hs
    simp only [List.mem_cons, List.not_mem_nil, or_false] at hc
    refine scan_of_reads (.symbol ?_ ?_ ?_ ?_ hs) <;>
      rcases hc with rfl | rfl | rfl | rfl | rfl | rfl
    all_goals first
      | (rw [Numeral.begins_of_ne (by decide)]; decide)
      | (rw [StringForm.opening?_cons]; rfl)
      | decide
      | (intro _ _ hslash; exact absurd hslash (by decide))
  cases k with
  | openParen => exact ⟨'(', rfl, hsign _ (by decide) rfl⟩
  | openBrace => exact ⟨'{', rfl, hsign _ (by decide) rfl⟩
  | openBracket => exact ⟨'[', rfl, hsign _ (by decide) rfl⟩
  | plus => exact ⟨'+', rfl, hsign _ (by decide) rfl⟩
  | bang =>
    have hne : d ≠ '=' := by simpa [TokenKind.endsAt] using hd
    refine ⟨'!', rfl, hsign _ (by decide) ?_⟩
    rw [symbol?]
    rintro _ ⟨⟩
    exact hne rfl
  | minus =>
    have hne : d ≠ '>' := by simpa [TokenKind.endsAt] using hd
    refine ⟨'-', rfl, hsign _ (by decide) ?_⟩
    rw [symbol?]
    rintro _ ⟨⟩
    exact hne rfl
  | dot =>
    refine ⟨'.', rfl, scan_of_reads (.symbol (n := 1) ?_ ?_ (by decide) ?_ rfl)⟩
    · exact identStart_not_digit hd
    · rw [StringForm.opening?_cons]
      rfl
    · intro _ _ hslash
      exact absurd hslash (by decide)
  | ident => exact absurd rfl hk
  | _ => cases hd

/-- What begins as a word is the mark of a literal only right before a quote. -/
theorem opening?_word {c : Char} {cs : List Char} (hc : isIdentStart c = true)
    (hcs : ∀ d ∈ cs.head?, d ≠ '"' ∧ d ≠ '`') : StringForm.opening? (c :: cs) = none := by
  have hne : ∀ d, isIdentStart d = false → c ≠ d := by
    rintro d hd rfl
    simp [hc] at hd
  have htriple : ['"', '"', '"'].isPrefixOf cs = false := by
    cases cs with
    | nil => rfl
    | cons d cs =>
      have hd : ('"' == d) = false := beq_false_of_ne (hcs d rfl).1.symm
      rw [List.isPrefixOf_cons_cons, hd, Bool.false_and]
  rw [StringForm.opening?_cons, if_neg (hne '`' (by decide)), htriple,
    if_neg fun h : cs.head? = some '"' => (hcs _ h).1 rfl,
    if_neg fun h : cs.head? = some '`' => (hcs _ h).2 rfl, if_neg (hne '\'' (by decide)),
    if_neg (hne '"' (by decide))]
  simp

theorem identPart_ne_quote {d : Char} (hd : isIdentPart d = true) : d ≠ '"' ∧ d ≠ '`' := by
  constructor <;>
  · rintro rfl
    exact absurd hd (by decide)

/-- A word is read where something stands right after it that leaves it as it is. -/
theorem scan_before (h : w.Readable) (hw : w.text.toList = c :: cs)
    (hr : ∀ d ∈ r.head?, Chars.isCalm d = true ∨ w.kind.endsAt d = true) :
    Lexeme.scan holeLength c (cs ++ r) = .ok (.token w.kind, cs.length) := by
  have hscan := h.scan hw
  by_cases hcalm : ∀ d ∈ r.head?, Chars.isCalm d = true
  · have hscan : Lexeme.scan holeLength c (cs ++ []) = .ok (.token w.kind, cs.length) := by
      rwa [List.append_nil]
    have hread := reads_of_scan hscan
    exact scan_of_reads (hread.local rfl (holeLength_local _) (Nat.le_refl _)
      fun d hd => .inr (hcalm d hd))
  · obtain ⟨d, r, rfl⟩ : ∃ d r', r = d :: r' := by
      cases r with
      | nil => simp at hcalm
      | cons d r => exact ⟨d, r, rfl⟩
    have hd : w.kind.endsAt d = true := (hr d rfl).resolve_left (by simpa using hcalm)
    by_cases hk : w.kind = .ident
    · rw [hk] at hd ⊢
      obtain ⟨hc, hparts⟩ := h.first_ident hw hk
      obtain rfl : d = '.' := by simpa [TokenKind.endsAt] using hd
      have htake : (cs ++ '.' :: r).takeWhile isIdentPart = cs :=
        takeWhile_append_iff.2 ⟨hparts, by simp; decide⟩
      have hread : Reads holeLength c (cs ++ '.' :: r) .ident
          ((cs ++ '.' :: r).takeWhile isIdentPart).length := by
        refine .ident (opening?_word hc fun e he => ?_) hc
        cases cs with
        | nil =>
          obtain rfl := Option.some.inj he
          decide
        | cons b cs =>
          obtain rfl := Option.some.inj he
          exact identPart_ne_quote (hparts _ (by simp))
      rw [htake] at hread
      exact scan_of_reads hread
    · obtain ⟨b, htext, hsign⟩ := scan_sign hd hk r
      have hone := h.symbol htext
      rw [hone, String.toList_ofList] at hw
      obtain ⟨rfl, rfl⟩ := List.cons.inj hw
      exact hsign

end Word.Readable

namespace Scans

variable {pos : Nat} {newline after : Bool} {ws cs r : List Char} {ts : List Token}

theorem blanks (hw : ∀ c ∈ ws, isBlank c = true)
    (h : Scans (pos + byteLength ws) (newline || ws.contains '\n') cs r ts after) :
    Scans pos newline (ws ++ cs) r ts after := by
  induction ws generalizing pos newline with
  | nil => simpa [byteLength] using h
  | cons c ws ih =>
    rw [List.forall_mem_cons] at hw
    refine .blank hw.1 (ih hw.2 ?_)
    rw [byteLength, ← Nat.add_assoc, List.contains_cons, ← Bool.or_assoc] at h
    rwa [Bool.beq_comm]

end Scans

namespace Chunk

/-- Whether there are only blanks between words, and none only where two words may touch. `before`
is the kind of the word before the first. -/
def isSet (before : Option TokenKind) : List Chunk → Bool
  | [] => true
  | ch :: chs =>
    ch.gap.all isBlank && (!ch.gap.isEmpty || before.all (·.touches ch.word.kind)) &&
      isSet (some ch.word.kind) chs

variable {before : Option TokenKind} {chs : List Chunk} {rest : List Char}

/-- What stands after a word leaves that word as it is. -/
theorem endsAt_of_isSet {k : TokenKind} (hs : isSet (some k) chs = true)
    (hw : ∀ ch ∈ chs, ch.word.Readable) (hr : ∀ d ∈ rest.head?, isCalm d = true) :
    ∀ d ∈ (spell chs ++ rest).head?, isCalm d = true ∨ k.endsAt d = true := by
  intro d hd
  cases chs with
  | nil => exact .inl (hr d hd)
  | cons ch chs =>
    obtain ⟨gap, w⟩ := ch
    simp only [isSet, Bool.and_eq_true, Bool.or_eq_true, List.all_eq_true, Option.all_some] at hs
    cases gap with
    | cons b gap =>
      obtain rfl := Option.some.inj hd
      have hblank : isBlank b = true := hs.1.1 b (by simp)
      exact .inl (by rw [isCalm, hblank, Bool.true_or])
    | nil =>
      have hread : w.Readable := hw _ (List.mem_cons_self ..)
      obtain ⟨c, cs, htext⟩ : ∃ c cs, w.text.toList = c :: cs := by
        obtain ⟨c, cs, htext, -⟩ := hread
        exact ⟨c, cs, htext⟩
      rw [spell, htext] at hd
      obtain rfl := Option.some.inj hd
      exact hread.first_touches htext (by simpa using hs.1.2)

/-- The text of chunks that are set is read as their tokens. -/
theorem scans (pos : Nat) (hs : isSet before chs = true) (hw : ∀ ch ∈ chs, ch.word.Readable)
    (hr : ∀ d ∈ rest.head?, isCalm d = true) :
    Scans pos false (spell chs) rest (place pos chs) false := by
  induction chs generalizing before pos with
  | nil => exact .done
  | cons ch chs ih =>
    obtain ⟨gap, w⟩ := ch
    rw [List.forall_mem_cons] at hw
    simp only [isSet, Bool.and_eq_true, List.all_eq_true] at hs
    obtain ⟨⟨hgap, -⟩, hs⟩ := hs
    obtain ⟨c, cs, htext, -⟩ := hw.1
    have hscan := hw.1.scan_before htext (endsAt_of_isSet hs hw.2 hr)
    have hsize : byteLength (c :: cs) = w.text.utf8ByteSize := by rw [← htext, byteLength_toList]
    have hword : String.ofList (c :: cs) = w.text := by rw [← htext, String.ofList_toList]
    refine .blanks hgap ?_
    rw [htext, place, Bool.false_or, ← hword]
    refine .token hscan ?_
    rw [hsize, hword]
    exact ih _ hs hw.2

/-- The text of chunks is lexed as their tokens. -/
theorem lexed {text : String} (base : Nat) (htext : text.toList = spell chs)
    (hs : isSet none chs = true) (hw : ∀ ch ∈ chs, ch.word.Readable) :
    Lexed.ofString base text =
      ⟨place base chs, .ok (Token.endAt (base + text.utf8ByteSize) false)⟩ := by
  refine lexed_iff.2 ⟨false, ?_, rfl⟩
  rw [htext]
  exact scans base hs hw (by simp)

end Chunk

end Script
