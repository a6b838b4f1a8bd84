import Script.Proofs.Lexing.Chunks
import Script.Proofs.Lexing.NumeralForms

/-!
Words spelled anew. What is read before a word does not depend on how the word is spelled: a numeral
and a word would go on with any word, a line comment would hold it, and nothing else looks at more
than whether a word begins.
-/
namespace Script

open Chars Numeral
open scoped Computability

/-- Whatever looks like a number does so with one more letter or digit behind it. -/
theorem Numeral.loose_append {w : List Char} {d : Char} (hw : w ∈ loose)
    (hd : isIdentPart d = true) : w ++ [d] ∈ loose := by
  have hmany : ∀ {l : Language Char} {v : List Char}, v ∈ l * (oneOf isIdentPart)∗ →
      v ++ [d] ∈ l * (oneOf isIdentPart)∗ := by
    rintro l _ ⟨v, hv, cs, hcs, rfl⟩
    refine ⟨v, hv, cs ++ [d], mem_many.2 ?_, (List.append_assoc v cs [d]).symm⟩
    exact List.forall_mem_append.2 ⟨mem_many.1 hcs, List.forall_mem_singleton.2 hd⟩
  exact hw.imp hmany hmany

/-- A numeral ends only before what is no letter and no digit. -/
theorem Numeral.run_stops {w r : List Char} (hb : begins (w ++ r) = true)
    (h : run (w ++ r) = w) : ∀ d ∈ r.head?, isIdentPart d = false := by
  intro d hd
  obtain ⟨r, rfl⟩ := List.head?_eq_some_iff.1 hd
  by_contra hpart
  rw [Bool.not_eq_false] at hpart
  have hlongest := run_longest hb
  rw [h] at hlongest
  have hmem : w ++ [d] ∈ loose := loose_append hlongest.mem hpart
  have hfront : w ++ [d] <+: w ++ d :: r := ⟨r, by simp⟩
  have hlength := hlongest.longest _ hmem hfront
  rw [List.length_append, List.length_singleton] at hlength
  omega

namespace Lexeme

variable {bound : Nat} {m m' : HoleMeasure} {c d d' : Char} {w r r' : List Char}

/-- A token that stands right before a word stays what it is before any word. -/
theorem Reads.before_word {k : TokenKind} {n : Nat} (h : Reads m c (w ++ d :: r) k n)
    (hw : n = w.length) (hm : LocalTo bound m m') (hn : n ≤ bound)
    (hd : isIdentStart d = true) (hd' : isIdentStart d' = true) :
    Reads m' c (w ++ d' :: r') k n := by
  have hpart : isIdentPart d = true := by rw [isIdentPart, hd, Bool.true_or]
  have htame := tamer_word hd' (d :: r) r'
  cases h with
  | number hb hk =>
    have hne := List.length_pos_iff.2 (Numeral.run_ne_nil hb)
    have hrun : Numeral.run (c :: w ++ d :: r) = c :: w := by
      refine eq_of_isPrefix (Numeral.run_isPrefix _) ?_
      simp only [List.cons_append, List.length_cons] at hw hne ⊢
      omega
    have hstop := Numeral.run_stops hb hrun d rfl
    rw [hpart] at hstop
    cases hstop
  | ident ho hc =>
    have htake := eq_of_isPrefix (List.takeWhile_prefix _) hw
    have hstop := (takeWhile_append_iff.1 htake).2 d rfl
    rw [hpart] at hstop
    cases hstop
  | string hb ho hl =>
    exact (Reads.string hb ho hl).local_tame (stringKind_plain _) hw hm hn htame
  | symbol hb ho hc hcomment hs =>
    obtain ⟨-, hident, -, hnumber⟩ := symbol?_kind hs
    exact (Reads.symbol hb ho hc hcomment hs).local_tame ⟨hident, hnumber⟩ hw hm hn htame

theorem Comments.before_word {n : Nat} (h : Comments (w ++ d :: r) n) (hw : n = w.length)
    (hd : isIdentStart d = true) : Comments (w ++ d' :: r') n := by
  cases w with
  | nil =>
    cases h <;> rw [List.length_nil] at hw <;> omega
  | cons e w =>
    rw [List.cons_append] at h ⊢
    cases h with
    | line cs =>
      have hlength : ((w ++ d :: r).takeWhile (· != '\n')).length = w.length := by
        rw [List.length_cons] at hw
        omega
      have htake := eq_of_isPrefix (List.takeWhile_prefix _) hlength
      have hstop := (takeWhile_append_iff.1 htake).2 d rfl
      obtain rfl : d = '\n' := by simpa using hstop
      cases hd
    | @block cs n hblock =>
      have hlength : n = w.length := by
        rw [List.length_cons] at hw
        omega
      have hlocal := (commentLength_local (r := d' :: r') hblock).2
      rw [hlength, List.take_left] at hlocal
      rw [hlength]
      exact .block hlocal

theorem scan_before_word {lexeme : Lexeme} (h : scan m c (w ++ d :: r) = .ok (lexeme, w.length))
    (hc : isBlank c = false) (hm : LocalTo bound m m') (hn : w.length ≤ bound)
    (hd : isIdentStart d = true) (hd' : isIdentStart d' = true) :
    scan m' c (w ++ d' :: r') = .ok (lexeme, w.length) := by
  cases lexeme with
  | token k => exact scan_of_reads ((reads_of_scan h).before_word rfl hm hn hd hd')
  | blank =>
    obtain ⟨hslash, hcomments⟩ := (scan_blank_iff hc).1 h
    exact (scan_blank_iff hc).2 ⟨hslash, hcomments.before_word rfl hd⟩

/-- A double quote and a tick begin nothing but a literal. -/
theorem Reads.quote {q : Char} {cs : List Char} {k : TokenKind} {n : Nat} (h : Reads m q cs k n)
    (hq : q = '"' ∨ q = '`') : k.isString = true := by
  cases h with
  | number hb =>
    have hne : q ≠ '.' := by rcases hq with rfl | rfl <;> decide
    rw [Numeral.begins_of_ne hne] at hb
    rcases hq with rfl | rfl <;> cases hb
  | @string form => cases form <;> rfl
  | ident _ hc => rcases hq with rfl | rfl <;> cases hc
  | symbol _ _ _ _ hs =>
    rcases hq with rfl | rfl
    · simp [symbol?] at hs
    · exact absurd rfl (symbol?_not_tick hs)

/-- A word is read to its end where no quote makes a mark of it. -/
theorem scan_word {b : List Char} (hd : isIdentStart d = true) (hw : ∀ e ∈ w, isIdentPart e = true)
    (hb : ∀ e ∈ b.head?, isIdentPart e = false ∧ e ≠ '"' ∧ e ≠ '`') :
    scan m d (w ++ b) = .ok (.token .ident, w.length) := by
  have htake : (w ++ b).takeWhile isIdentPart = w :=
    takeWhile_append_iff.2 ⟨hw, fun e he => (hb e he).1⟩
  have hread : Reads m d (w ++ b) .ident ((w ++ b).takeWhile isIdentPart).length := by
    refine .ident (Word.Readable.opening?_word hd fun e he => ?_) hd
    cases w with
    | nil => exact (hb e he).2
    | cons f w =>
      obtain rfl := Option.some.inj he
      exact Word.Readable.identPart_ne_quote (hw _ List.mem_cons_self)
  rw [htake] at hread
  exact scan_of_reads hread

/-- A word begins as one, and it ends before what is no part of it. -/
theorem Reads.word {b : List Char} {n : Nat} (h : Reads m c (w ++ b) .ident n)
    (hn : n = w.length) :
    isIdentStart c = true ∧ ∀ e ∈ b.head?, isIdentPart e = false := by
  generalize hk : TokenKind.ident = k at h
  cases h with
  | number => cases hk
  | @string form => cases form <;> cases hk
  | symbol _ _ _ _ hs => exact absurd hk.symm (symbol?_kind hs).2.1
  | ident _ hc =>
    exact ⟨hc, (takeWhile_append_iff.1 (eq_of_isPrefix (List.takeWhile_prefix _) hn)).2⟩

end Lexeme

open Lexeme

namespace Scans

variable {pos : Nat} {newline after : Bool} {cs r r' : List Char} {ts us vs : List Token}
  {d d' : Char} {t : Token}

/-- What is read before a word is read before any word. -/
theorem before_word (h : Scans pos newline cs (d :: r) ts after) (hd : isIdentStart d = true)
    (hd' : isIdentStart d' = true) : Scans pos newline cs (d' :: r') ts after :=
  h.reread fun _ _ _ hc hs =>
    scan_before_word hs hc (holeLength_local _) (Nat.le_refl _) hd hd'

/-- What is read before a token, the token, and what is read behind it. -/
theorem around (h : Scans pos newline cs r (us ++ t :: vs) after) :
    ∃ a c w b before, cs = a ++ c :: (w ++ b) ∧
      Scans pos newline a (c :: (w ++ (b ++ r))) us before ∧
      t = ⟨t.kind, String.ofList (c :: w), pos + byteLength a, before⟩ ∧
      scan holeLength c (w ++ (b ++ r)) = .ok (.token t.kind, w.length) ∧
      Scans (pos + byteLength a + byteLength (c :: w)) false b r vs after := by
  generalize hts : us ++ t :: vs = ts at h
  induction h generalizing us with
  | done => simp at hts
  | @blank pos newline _ c cs r _ hc _ ih =>
    obtain ⟨a, d, w, b, before, rfl, hbefore, ht, hs, hbehind⟩ := ih hts
    refine ⟨c :: a, d, w, b, before, rfl, .blank hc hbefore, ?_, hs, ?_⟩
    · rwa [byteLength, ← Nat.add_assoc]
    · rwa [byteLength, ← Nat.add_assoc]
  | @comment pos newline _ c v cs r _ hc hv _ ih =>
    obtain ⟨a, d, w, b, before, rfl, hbefore, ht, hs, hbehind⟩ := ih hts
    refine ⟨c :: (v ++ a), d, w, b, before, by simp, .comment hc ?_ hbefore, ?_, hs, ?_⟩
    · simpa using hv
    · rwa [← List.cons_append, byteLength_append, ← Nat.add_assoc]
    · rwa [← List.cons_append, byteLength_append, ← Nat.add_assoc]
  | @token pos newline _ c v cs r k ts hv hscans ih =>
    cases us with
    | nil =>
      obtain ⟨rfl, rfl⟩ := List.cons.inj hts
      exact ⟨[], c, v, cs, newline, rfl, .done, rfl, hv, hscans⟩
    | cons u us =>
      obtain ⟨rfl, hrest⟩ := List.cons.inj hts
      obtain ⟨a, d, w, b, before, rfl, hbefore, ht, hs, hbehind⟩ := ih hrest
      refine ⟨c :: (v ++ a), d, w, b, before, by simp, .token ?_ hbefore, ?_, hs, ?_⟩
      · simpa using hv
      · rwa [← List.cons_append, byteLength_append, ← Nat.add_assoc]
      · rwa [← List.cons_append, byteLength_append, ← Nat.add_assoc]

/-- What is read where a quote stands is a literal. -/
theorem quote_first {q : Char} (hq : q = '"' ∨ q = '`')
    (h : Scans pos newline (q :: cs) r ts after) :
    ∃ u us, ts = u :: us ∧ u.newlineBefore = newline ∧ u.kind.isString = true := by
  generalize hcs : q :: cs = x at h
  cases h with
  | done => cases hcs
  | blank hc =>
    obtain ⟨rfl, -⟩ := List.cons.inj hcs
    rcases hq with rfl | rfl <;> cases hc
  | comment hc hs =>
    obtain ⟨rfl, -⟩ := List.cons.inj hcs
    obtain ⟨rfl, -⟩ := (scan_blank_iff hc).1 hs
    rcases hq with hq | hq <;> cases hq
  | token hs =>
    obtain ⟨rfl, -⟩ := List.cons.inj hcs
    exact ⟨_, _, rfl, rfl, (reads_of_scan hs).quote hq⟩

/-- A word in a text may be any other word of its size, unless a literal stands right behind it. -/
theorem respell {w : List Char} (h : Scans pos newline cs [] (us ++ t :: vs) after)
    (hk : t.kind = .ident)
    (hvs : ∀ u ∈ vs.head?, u.newlineBefore = false → u.kind.isString = false)
    (hd : isIdentStart d = true) (hw : ∀ e ∈ w, isIdentPart e = true)
    (hsize : byteLength (d :: w) = t.text.utf8ByteSize) :
    ∃ a b, cs = a ++ (t.text.toList ++ b) ∧ t.start = pos + byteLength a ∧
      Scans pos newline (a ++ (d :: w ++ b)) []
        (us ++ { t with text := String.ofList (d :: w) } :: vs) after := by
  obtain ⟨a, c, v, b, before, rfl, hbefore, ht, hs, hbehind⟩ := h.around
  rw [hk] at ht hs
  subst ht
  rw [List.append_nil] at hs hbefore
  rw [utf8ByteSize_ofList] at hsize
  obtain ⟨hstart, hstops⟩ := (reads_of_scan hs).word rfl
  refine ⟨a, b, by rw [String.toList_ofList]; rfl, rfl, ?_⟩
  have hquote : ∀ e ∈ b.head?, e ≠ '"' ∧ e ≠ '`' := by
    intro e he
    obtain ⟨b, rfl⟩ := List.head?_eq_some_iff.1 he
    by_contra hq
    rw [← not_or, not_not] at hq
    obtain ⟨u, us, rfl, hu, hstring⟩ := hbehind.quote_first hq
    rw [hvs u rfl hu] at hstring
    cases hstring
  have hword : Scans (pos + byteLength a) before (d :: (w ++ b)) []
      (⟨.ident, String.ofList (d :: w), pos + byteLength a, before⟩ :: vs) after := by
    refine .token ?_ (hsize ▸ hbehind)
    rw [List.append_nil]
    exact scan_word hd hw fun e he => ⟨hstops e he, hquote e he⟩
  refine Scans.append ?_ hword
  rw [List.append_nil]
  exact hbefore.before_word hstart hd

end Scans

end Script
