import Script.Proofs.Lexing

/-!
How far a lexeme depends on the text after it: only through the next character, and on that only as
far as it might continue the lexeme. A lexeme therefore stays what it is where the text after it is
cut off, or where a line break takes its place, and a token also where a blank or a delimiter does.
-/
namespace Script

/-- A character that goes on with no token: a blank, a separator or a bracket. -/
def Chars.isCalm (c : Char) : Bool :=
  isBlank c || [',', ';', ':', '(', ')', '[', ']', '\x7b', '\x7d'].contains c

/-- The text `r'` begins as `r` does, or with a line break, or not at all. -/
def Milder (r r' : List Char) : Prop := ∀ d ∈ r'.head?, d ∈ r.head? ∨ d = '\n'

theorem milder_same {r r' : List Char} (h : r'.head? = r.head?) : Milder r r' :=
  fun _ hd => .inl (h ▸ hd)

/-- The text `r'` begins as `r` does, or with a character that goes on with no token, or not at all.
-/
def Calmer (r r' : List Char) : Prop := ∀ d ∈ r'.head?, d ∈ r.head? ∨ Chars.isCalm d = true

theorem calmer_same {r r' : List Char} (h : r'.head? = r.head?) : Calmer r r' :=
  fun _ hd => .inl (h ▸ hd)

theorem Milder.calmer {r r' : List Char} (h : Milder r r') : Calmer r r' :=
  fun d hd => (h d hd).imp_right fun hbreak => by rw [hbreak]; rfl

/-- Where more text stands between a lexeme and what follows, it is this text that matters. -/
theorem Calmer.append {r r' : List Char} (h : Calmer r r') (cs : List Char) :
    Calmer (cs ++ r) (cs ++ r') := by
  cases cs with
  | nil => exact h
  | cons c cs => exact calmer_same rfl

/-- A character that goes on with no sign and with no string: a calm one, or the first of a word. -/
def Chars.isTame (c : Char) : Bool := isCalm c || isIdentStart c

/-- The text `r'` begins as `r` does, or with a character that goes on with no sign and with no
string, or not at all. -/
def Tamer (r r' : List Char) : Prop := ∀ d ∈ r'.head?, d ∈ r.head? ∨ Chars.isTame d = true

theorem Calmer.tamer {r r' : List Char} (h : Calmer r r') : Tamer r r' :=
  fun d hd => (h d hd).imp_right fun hcalm => by rw [Chars.isTame, hcalm, Bool.true_or]

theorem tamer_word {d : Char} (hd : Chars.isIdentStart d = true) (r r' : List Char) :
    Tamer r (d :: r') := by
  intro e he
  obtain rfl := Option.some.inj he
  exact .inr (by rw [Chars.isTame, hd, Bool.or_true])

theorem Tamer.append {r r' : List Char} (h : Tamer r r') (cs : List Char) :
    Tamer (cs ++ r) (cs ++ r') := by
  cases cs with
  | nil => exact h
  | cons c cs => exact fun _ hd => .inl hd

section Prefixes

variable {p : Char → Bool} {w r r' : List Char}

theorem takeWhile_append_iff :
    (w ++ r).takeWhile p = w ↔ (∀ c ∈ w, p c = true) ∧ ∀ c ∈ r.head?, p c = false := by
  induction w with
  | nil =>
    cases r with
    | nil => simp
    | cons c r => cases h : p c <;> simp [h]
  | cons c w ih => cases h : p c <;> simp [h, ih]

theorem takeWhile_local (h : (w ++ r).takeWhile p = w)
    (hr : ∀ c ∈ r'.head?, c ∈ r.head? ∨ p c = false) : (w ++ r').takeWhile p = w := by
  obtain ⟨hw, hstop⟩ := takeWhile_append_iff.1 h
  exact takeWhile_append_iff.2 ⟨hw, fun c hc => (hr c hc).elim (hstop c) id⟩

/-- A run of characters ends before a calm one if none of them is calm. -/
theorem Calmer.ends (hr : Calmer r r') (hp : ∀ c, Chars.isCalm c = true → p c = false) :
    ∀ c ∈ r'.head?, c ∈ r.head? ∨ p c = false :=
  fun c hc => (hr c hc).imp_right (hp c)

end Prefixes

namespace Chars

theorem le_iff_toNat (a b : Char) : a ≤ b ↔ a.toNat ≤ b.toNat := by
  rw [Char.le_def, UInt32.le_iff_toNat_le]
  rfl

/-- The calm characters are few. -/
theorem calm_cases {c : Char} (h : isCalm c = true) :
    c ∈ [' ', '\t', '\r', '\n', '\x0c', ',', ';', ':', '(', ')', '[', ']', '\x7b', '\x7d'] := by
  simpa [isCalm, isBlank, or_assoc] using h

theorem calm_not_identPart (c : Char) (h : isCalm c = true) : isIdentPart c = false := by
  have hall : [' ', '\t', '\r', '\n', '\x0c', ',', ';', ':', '(', ')', '[', ']', '\x7b', '\x7d'].all
      (fun c => !isIdentPart c) = true := by decide
  simpa using List.all_eq_true.1 hall c (calm_cases h)

theorem calm_ne {c d : Char} (h : isCalm c = true) (hd : isCalm d = false) : c ≠ d := by
  rintro rfl
  simp [h] at hd

/-- The characters of names are ASCII. -/
theorem identPart_ascii {c : Char} (h : isIdentPart c = true) : c.utf8Size = 1 := by
  by_cases hunder : c = '_'
  · subst hunder
    decide
  by_cases hdollar : c = '$'
  · subst hdollar
    decide
  simp only [isIdentPart, isIdentStart, isLetter, isDigit, le_iff_toNat, Bool.or_eq_true,
    Bool.and_eq_true, decide_eq_true_eq, beq_iff_eq, hunder, hdollar, or_false,
    Char.reduceToNat] at h
  rw [Char.utf8Size_eq_one_iff, UInt32.le_iff_toNat_le]
  show c.toNat ≤ 127
  omega

/-- A name takes as many bytes as it has characters. -/
theorem byteLength_word {cs : List Char} (h : ∀ c ∈ cs, isIdentPart c = true) :
    byteLength cs = cs.length := by
  induction cs with
  | nil => rfl
  | cons c cs ih =>
    rw [List.forall_mem_cons] at h
    rw [byteLength, identPart_ascii h.1, ih h.2, List.length_cons, Nat.add_comm]

theorem identStart_not_digit {c : Char} (h : isIdentStart c = true) : isDigit c = false := by
  by_cases h1 : c = '_'
  · subst h1; decide
  by_cases h2 : c = '$'
  · subst h2; decide
  simp only [isIdentStart, isLetter, isDigit, le_iff_toNat, Bool.or_eq_true, Bool.and_eq_true,
    decide_eq_true_eq, beq_iff_eq, h1, h2, or_false, Bool.and_eq_false_iff,
    decide_eq_false_iff_not, Char.reduceToNat] at h ⊢
  omega

theorem tame_not_digit {c : Char} (h : isTame c = true) : isDigit c = false := by
  rw [isTame, Bool.or_eq_true] at h
  rcases h with h | h
  · have hpart := calm_not_identPart c h
    rw [isIdentPart, Bool.or_eq_false_iff] at hpart
    exact hpart.2
  · exact identStart_not_digit h

end Chars

namespace Numeral

open Chars

variable {w r r' : List Char}

theorem calm_not_digitPart (c : Char) (h : isCalm c = true) : isDigitPart c = false := by
  have hpart := calm_not_identPart c h
  simp only [isIdentPart, isIdentStart, Bool.or_eq_false_iff] at hpart
  simp [isDigitPart, hpart]

theorem tail_local (h : tail (w ++ r) = w) (hr : Calmer r r') : tail (w ++ r') = w :=
  takeWhile_local h (hr.ends calm_not_identPart)

theorem exponent_calm {d : Char} (h : isCalm d = true) (cs : List Char) :
    exponent (d :: cs) = [] := by
  have he : (d == 'e' || d == 'E') = false := by
    simp [calm_ne h (by decide : isCalm 'e' = false), calm_ne h (by decide : isCalm 'E' = false)]
  simp [exponent, he, tail, calm_not_identPart d h]

theorem exponent_local (h : exponent (w ++ r) = w) (hr : Calmer r r') :
    exponent (w ++ r') = w := by
  match w with
  | [] =>
    rw [List.nil_append] at h ⊢
    cases r' with
    | nil => rfl
    | cons d r' =>
      rcases hr d rfl with hd | hd
      · cases r with
        | nil => cases hd
        | cons c r =>
          obtain rfl := Option.some.inj hd
          simp only [exponent] at h ⊢
          by_cases he : (c == 'e' || c == 'E') = true
          · rw [if_pos he] at h
            split at h
            · split at h <;> cases h
            · cases h
          · rw [if_neg he] at h ⊢
            exact tail_local (w := []) h (calmer_same rfl)
      · exact exponent_calm hd r'
  | [e] =>
    simp only [List.cons_append, List.nil_append, exponent] at h ⊢
    by_cases he : (e == 'e' || e == 'E') = true
    · rw [if_pos he] at h ⊢
      cases r' with
      | nil => rfl
      | cons d r' =>
        rcases hr d rfl with hd | hd
        · cases r with
          | nil => cases hd
          | cons c r =>
            obtain rfl := Option.some.inj hd
            dsimp only at h ⊢
            split at h
            · simp at h
            · rename_i hs
              rw [if_neg hs]
              exact congrArg (e :: ·) (tail_local (w := []) (List.cons.inj h).2 (calmer_same rfl))
        · have hs : (d == '+' || d == '-') = false := by
            simp [calm_ne hd (by decide : isCalm '+' = false),
              calm_ne hd (by decide : isCalm '-' = false)]
          simp [hs, tail, calm_not_identPart d hd]
    · rw [if_neg he] at h ⊢
      exact tail_local (w := [e]) h hr
  | e :: s :: w =>
    simp only [List.cons_append, exponent] at h ⊢
    split at h
    · split at h
      · rw [tail_local (List.cons.inj (List.cons.inj h).2).2 hr]
        simp_all
      · rename_i he hs
        rw [if_pos he, if_neg hs]
        exact congrArg (e :: ·) (tail_local (w := s :: w) (List.cons.inj h).2 hr)
    · rename_i he
      rw [if_neg he]
      exact tail_local (w := e :: s :: w) h hr

theorem fraction_local (h : fraction (w ++ r) = w) (hr : Calmer r r') :
    fraction (w ++ r') = w := by
  obtain ⟨ds, hds⟩ : ∃ ds, (w ++ r).takeWhile isDigitPart = ds := ⟨_, rfl⟩
  obtain ⟨x, hx⟩ : ∃ x, exponent ((w ++ r).dropWhile isDigitPart) = x := ⟨_, rfl⟩
  have hw : w = ds ++ x := by rw [← h, fraction, hds, hx]
  have hdrop : (w ++ r).dropWhile isDigitPart = x ++ r := by
    have hall := List.takeWhile_append_dropWhile (p := isDigitPart) (l := w ++ r)
    rw [hds] at hall
    have hsame : ds ++ (w ++ r).dropWhile isDigitPart = ds ++ (x ++ r) := by
      rw [hall, hw, List.append_assoc]
    exact List.append_cancel_left hsame
  subst hw
  rw [hdrop] at hx
  rw [List.append_assoc] at hds ⊢
  have htake := takeWhile_local hds ((hr.append x).ends calm_not_digitPart)
  have hdrop' : (ds ++ (x ++ r')).dropWhile isDigitPart = x ++ r' := by
    have hall := List.takeWhile_append_dropWhile (p := isDigitPart) (l := ds ++ (x ++ r'))
    rw [htake] at hall
    exact List.append_cancel_left hall
  rw [fraction, htake, hdrop', exponent_local hx hr]

theorem run_point {whole rest : List Char} (hw : ∀ c ∈ whole, isDigitPart c = true) :
    run (whole ++ '.' :: rest) = whole ++ '.' :: fraction rest := by
  have htake : (whole ++ '.' :: rest).takeWhile isDigitPart = whole :=
    takeWhile_append_iff.2 ⟨hw, by simp; decide⟩
  have hall := List.takeWhile_append_dropWhile (p := isDigitPart) (l := whole ++ '.' :: rest)
  rw [htake] at hall
  simp only [run, htake, List.append_cancel_left hall]

theorem run_plain {whole rest : List Char} (hw : ∀ c ∈ whole, isDigitPart c = true)
    (hr : ∀ c ∈ rest.head?, isDigitPart c = false ∧ c ≠ '.') :
    run (whole ++ rest) = whole ++ exponent rest := by
  have htake : (whole ++ rest).takeWhile isDigitPart = whole :=
    takeWhile_append_iff.2 ⟨hw, fun c hc => (hr c hc).1⟩
  have hall := List.takeWhile_append_dropWhile (p := isDigitPart) (l := whole ++ rest)
  rw [htake] at hall
  rw [run, htake, List.append_cancel_left hall]
  cases rest with
  | nil => rfl
  | cons c rest =>
    split
    · rename_i hpoint
      obtain ⟨rfl, -⟩ := List.cons.inj hpoint
      exact absurd rfl (hr '.' rfl).2
    · rfl

/-- A numeral has digits at its front, and then a point or not. -/
theorem run_cases (cs : List Char) : ∃ whole rest, (∀ c ∈ whole, isDigitPart c = true) ∧
    (cs = whole ++ '.' :: rest ∨
      cs = whole ++ rest ∧ ∀ c ∈ rest.head?, isDigitPart c = false ∧ c ≠ '.') := by
  have hall := List.takeWhile_append_dropWhile (p := isDigitPart) (l := cs)
  obtain ⟨hdigits, hstop⟩ := takeWhile_append_iff.1 (congrArg (List.takeWhile isDigitPart) hall)
  cases hd : cs.dropWhile isDigitPart with
  | nil =>
    refine ⟨_, [], hdigits, .inr ⟨?_, by simp⟩⟩
    rw [← hd, hall]
  | cons c rest =>
    rw [hd] at hall hstop
    by_cases hc : c = '.'
    · subst hc
      exact ⟨_, rest, hdigits, .inl hall.symm⟩
    · refine ⟨_, c :: rest, hdigits, .inr ⟨hall.symm, fun x hx => ?_⟩⟩
      obtain rfl := Option.some.inj hx
      exact ⟨hstop c rfl, hc⟩

theorem run_local (h : run (w ++ r) = w) (hr : Calmer r r') : run (w ++ r') = w := by
  obtain ⟨whole, rest, hw, hcs | ⟨hcs, hrest⟩⟩ := run_cases (w ++ r)
  · rw [hcs, run_point hw] at h
    subst h
    have hfrac : rest = fraction rest ++ r := by simpa using hcs.symm
    rw [List.append_assoc, List.cons_append, run_point hw]
    rw [fraction_local (w := fraction rest) (by rw [← hfrac]) hr]
  · rw [hcs, run_plain hw hrest] at h
    subst h
    have hexp : rest = exponent rest ++ r := by simpa using hcs.symm
    have hhead : ∀ c ∈ (exponent rest ++ r').head?, isDigitPart c = false ∧ c ≠ '.' := by
      intro c hc
      rcases hr.append (exponent rest) c hc with h | h
      · exact hrest c (hexp ▸ h)
      · exact ⟨calm_not_digitPart c h, calm_ne h (by decide)⟩
    rw [List.append_assoc, run_plain hw hhead]
    rw [exponent_local (w := exponent rest) (by rw [← hexp]) hr]

theorem exponent_isPrefix (cs : List Char) : exponent cs <+: cs := by
  unfold exponent
  split
  · split
    · split
      · split
        · exact (List.prefix_cons_inj _).2 ((List.prefix_cons_inj _).2 (List.takeWhile_prefix _))
        · exact (List.prefix_cons_inj _).2 (List.takeWhile_prefix _)
      · exact List.prefix_rfl
    · exact List.takeWhile_prefix _
  · exact List.prefix_rfl

theorem fraction_isPrefix (cs : List Char) : fraction cs <+: cs := by
  conv => rhs; rw [← List.takeWhile_append_dropWhile (p := isDigitPart) (l := cs)]
  exact (List.prefix_append_right_inj _).2 (exponent_isPrefix _)

theorem run_isPrefix (cs : List Char) : run cs <+: cs := by
  obtain ⟨whole, rest, hw, rfl | ⟨rfl, hrest⟩⟩ := run_cases cs
  · rw [run_point hw]
    exact (List.prefix_append_right_inj _).2 ((List.prefix_cons_inj _).2 (fraction_isPrefix _))
  · rw [run_plain hw hrest]
    exact (List.prefix_append_right_inj _).2 (exponent_isPrefix _)

theorem run_ne_nil {c : Char} {cs : List Char} (h : begins (c :: cs) = true) :
    run (c :: cs) ≠ [] := by
  by_cases hc : isDigitPart c = true
  · intro hrun
    have htake : (c :: cs).takeWhile isDigitPart = c :: cs.takeWhile isDigitPart := by
      rw [List.takeWhile_cons, if_pos hc]
    rw [run, htake] at hrun
    split at hrun <;> simp_all
  · have hpoint : c = '.' := by
      unfold begins at h
      split at h
      · rename_i hcons
        exact (List.cons.inj hcons).1
      · rename_i hcons
        obtain ⟨rfl, -⟩ := List.cons.inj hcons
        exact absurd (by simp [isDigitPart, h]) hc
      · cases h
    subst hpoint
    rw [← List.nil_append ('.' :: cs), run_point (by simp)]
    simp

theorem begins_of_ne {c : Char} {cs : List Char} (h : c ≠ '.') :
    begins (c :: cs) = isDigit c := by
  unfold begins
  split
  · rename_i hcons
    exact absurd (List.cons.inj hcons).1 h
  · rename_i hcons
    rw [(List.cons.inj hcons).1]
  · rename_i hnil
    cases hnil

theorem begins_local {c : Char} {cs cs' : List Char} (h : begins (c :: cs) = false)
    (hr : Tamer cs cs') : begins (c :: cs') = false := by
  by_cases hc : c = '.'
  · subst hc
    cases cs' with
    | nil => rfl
    | cons d cs' =>
      rcases hr d rfl with hd | hd
      · cases cs with
        | nil => cases hd
        | cons e cs =>
          obtain rfl := Option.some.inj hd
          exact h
      · exact tame_not_digit hd
  · rw [begins_of_ne hc] at h ⊢
    exact h

end Numeral

namespace StringForm

/-- The form of a literal by its first characters. -/
theorem opening?_cons (c : Char) (cs : List Char) :
    opening? (c :: cs) =
      if c = '`' then if ['`', '`'].isPrefixOf cs then some multiline else none
      else if c = 'f' then
        if ['"', '"', '"'].isPrefixOf cs then some formattedTriple
        else if cs.head? = some '"' then some formatted
        else if cs.head? = some '`' then some formattedTick else none
      else if c = '\'' then some single
      else if c = '"' then some double else none := by
  have hhead : ∀ d : Char, [d].isPrefixOf cs = decide (cs.head? = some d) := by
    intro d
    cases cs with
    | nil => simp
    | cons e es => simp [List.isPrefixOf, eq_comm, Bool.beq_eq_decide_eq]
  by_cases h1 : c = '`'
  · subst h1
    cases h : List.isPrefixOf ['`', '`'] cs <;>
      simp [opening?, all, List.find?, opener, List.isPrefixOf_cons_cons, h]
  by_cases h2 : c = 'f'
  · subst h2
    cases h : List.isPrefixOf ['"', '"', '"'] cs <;> by_cases hq : cs.head? = some '"' <;>
      by_cases ht : cs.head? = some '`' <;>
      simp [opening?, all, List.find?, opener, List.isPrefixOf_cons_cons, hhead, h, hq, ht]
  by_cases h3 : c = '\''
  · subst h3
    simp [opening?, all, List.find?, opener, List.isPrefixOf_cons_cons]
  by_cases h4 : c = '"'
  · subst h4
    simp [opening?, all, List.find?, opener, List.isPrefixOf_cons_cons]
  simp [opening?, all, List.find?, opener, List.isPrefixOf_cons_cons, h1, h2, h3, h4,
    beq_false_of_ne (Ne.symm h1), beq_false_of_ne (Ne.symm h2), beq_false_of_ne (Ne.symm h3),
    beq_false_of_ne (Ne.symm h4)]

theorem opening?_none_local {c : Char} {cs cs' : List Char} (h : opening? (c :: cs) = none)
    (hc : c ≠ '`') (hr : Tamer cs cs') : opening? (c :: cs') = none := by
  rw [opening?_cons, if_neg hc] at h ⊢
  by_cases hf : c = 'f'
  · rw [if_pos hf] at h ⊢
    have hq : cs'.head? ≠ some '"' ∧ cs'.head? ≠ some '`' := by
      have hcs : cs.head? ≠ some '"' ∧ cs.head? ≠ some '`' := by
        constructor <;>
        · intro hcs
          simp only [hcs] at h
          split at h <;> simp at h
      constructor <;> intro hcs'
      · rcases hr _ hcs' with hd | hd
        · exact hcs.1 hd
        · cases hd
      · rcases hr _ hcs' with hd | hd
        · exact hcs.2 hd
        · cases hd
    have htriple : ['"', '"', '"'].isPrefixOf cs' = false := by
      cases cs' with
      | nil => rfl
      | cons d cs' =>
        have hd : ('"' == d) = false := beq_false_of_ne fun h => hq.1 (by rw [h]; rfl)
        simp [List.isPrefixOf_cons_cons, hd]
    simp [htriple, hq]
  · rw [if_neg hf] at h ⊢
    exact h

theorem prefix_append_iff {w x r : List Char} (h : w.length ≤ x.length) :
    w <+: x ++ r ↔ w <+: x :=
  ⟨fun hw => List.prefix_of_prefix_length_le hw (List.prefix_append x r) h,
    fun hw => hw.trans (List.prefix_append x r)⟩

/-- What the first characters of a text are where a literal begins. -/
def Begins (c : Char) (cs : List Char) : StringForm → Prop
  | double => c = '"'
  | single => c = '\''
  | multiline => c = '`' ∧ ['`', '`'] <+: cs
  | formattedTriple => c = 'f' ∧ ['"', '"', '"'] <+: cs
  | formatted => c = 'f' ∧ ¬ ['"', '"', '"'] <+: cs ∧ cs.head? = some '"'
  | formattedTick => c = 'f' ∧ cs.head? = some '`'

theorem opening?_eq_some {c : Char} {cs : List Char} {form : StringForm} :
    opening? (c :: cs) = some form ↔ Begins c cs form := by
  rw [opening?_cons]
  constructor
  · intro h
    repeat' split at h
    all_goals first
      | (obtain rfl := Option.some.inj h; simp_all [Begins])
      | cases h
  · cases form <;> simp +contextual [Begins]
    · rintro rfl hcs
      cases cs with
      | nil => cases hcs
      | cons d cs =>
        obtain rfl := Option.some.inj hcs
        simp

/-- The form of a literal does not change with what follows it, once the literal is longer than its
opener. -/
theorem opening?_some_local {form : StringForm} {lit r r' : List Char}
    (h : opening? (lit ++ r) = some form) (hlen : form.opener.length < lit.length)
    (hr : Tamer r r') : opening? (lit ++ r') = some form := by
  match lit with
  | [] => simp at hlen
  | [c] => cases form <;> simp [opener] at hlen
  | c :: d :: ds =>
    rw [List.cons_append, opening?_eq_some] at h ⊢
    cases form with
    | double => exact h
    | single => exact h
    | formattedTick => exact h
    | multiline =>
      simp only [opener, List.length_cons, List.length_nil] at hlen
      simp only [Begins] at h ⊢
      rwa [prefix_append_iff (by simp; omega)] at h ⊢
    | formattedTriple =>
      simp only [opener, List.length_cons, List.length_nil] at hlen
      simp only [Begins] at h ⊢
      rwa [prefix_append_iff (by simp; omega)] at h ⊢
    | formatted =>
      refine ⟨h.1, ?_, h.2.2⟩
      have hnot := h.2.1
      refine fun hpre => hnot ?_
      match ds with
      | [] => simp [opener] at hlen
      | [e] =>
        simp only [List.cons_append, List.nil_append, List.cons_prefix_cons] at hpre ⊢
        obtain ⟨hd, he, hr'⟩ := hpre
        refine ⟨hd, he, ?_⟩
        cases r' with
        | nil => simp at hr'
        | cons x r' =>
          obtain ⟨rfl, -⟩ := List.cons_prefix_cons.1 hr'
          rcases hr '"' rfl with hx | hx
          · cases r with
            | nil => cases hx
            | cons y r =>
              obtain rfl := Option.some.inj hx
              simp
          · exact absurd hx (by decide)
      | e :: x :: xs =>
        rw [prefix_append_iff (by simp)] at hpre ⊢
        exact hpre

theorem opening?_isPrefix {form : StringForm} {cs : List Char} (h : opening? cs = some form) :
    form.opener <+: cs := by
  unfold opening? at h
  simpa using List.find?_some h

theorem opener_pos (form : StringForm) : 0 < form.opener.length := by
  cases form <;> decide

theorem closer_pos (form : StringForm) : 0 < form.closer.length := by
  cases form <;> decide

end StringForm

/-- A measure whose results up to `bound` another one has too, whatever follows the hole. -/
def LocalTo (bound : Nat) (m m' : HoleMeasure) : Prop :=
  ∀ cs n, m cs = .ok n → n ≤ bound → ∀ r, m' (cs.take n ++ r) = .ok n

namespace Lexeme

variable {m m' : HoleMeasure} {form : StringForm} {bound : Nat}

theorem bodyLength_zero (c : Char) (cs : List Char) :
    bodyLength form m 0 (c :: cs) =
      if form.closer.isPrefixOf (c :: cs) then .ok form.closer.length
      else if c = '\\' && form.hasEscapes then (· + 1) <$> bodyLength form m 1 cs
      else if c = '$' && form.hasHoles then
        match cs with
        | '{' :: hole =>
          match m hole with
          | .ok n => (· + 1) <$> bodyLength form m (n + 1) cs
          | .error fault => .error fault
        | _ => (· + 1) <$> bodyLength form m 0 cs
      else (· + 1) <$> bodyLength form m 0 cs := rfl

/-- A character that ends nothing and begins nothing is passed over. -/
theorem bodyLength_plain {c : Char} {cs : List Char}
    (hcloser : ¬ form.closer.isPrefixOf (c :: cs) = true)
    (hescape : ¬ (decide (c = '\\') && form.hasEscapes) = true)
    (hhole : (decide (c = '$') && form.hasHoles) = true → cs.head? ≠ some '{') :
    bodyLength form m 0 (c :: cs) = (· + 1) <$> bodyLength form m 0 cs := by
  rw [bodyLength_zero, if_neg hcloser, if_neg hescape]
  split
  · rename_i hdollar
    split
    · exact absurd rfl (hhole hdollar)
    · rfl
  · rfl

theorem bodyLength_le {skip n : Nat} {cs : List Char}
    (h : bodyLength form m skip cs = .ok n) :
    skip + form.closer.length ≤ n ∧ n ≤ cs.length := by
  induction cs generalizing skip n with
  | nil => cases h
  | cons c cs ih =>
    cases skip with
    | succ k =>
      obtain ⟨n, hn, rfl⟩ := map_eq_ok.1 h
      have := ih hn
      simp only [List.length_cons]
      omega
    | zero =>
      rw [bodyLength_zero] at h
      have hpos := form.closer_pos
      split at h
      · rename_i hcloser
        obtain rfl := Except.ok.inj h
        exact ⟨by omega, (List.isPrefixOf_iff_prefix.1 hcloser).length_le⟩
      repeat' split at h
      all_goals first
        | cases h
        | (obtain ⟨n, hn, rfl⟩ := map_eq_ok.1 h
           have := ih hn
           simp only [List.length_cons] at this ⊢
           omega)

theorem take_append_drop_take {n k : Nat} {cs : List Char} (h : n ≤ k) :
    cs.take k = cs.take n ++ (cs.drop n).take (k - n) := by
  conv => lhs; rw [show k = n + (k - n) by omega, List.take_add]

theorem bodyLength_closer {cs r : List Char} (h : cs = form.closer ++ r) :
    bodyLength form m 0 cs = .ok form.closer.length := by
  subst h
  have hpos := form.closer_pos
  cases hc : form.closer with
  | nil => simp [hc] at hpos
  | cons d ds =>
    rw [List.cons_append, bodyLength_zero, if_pos]
    · rw [hc]
    · rw [hc, List.isPrefixOf_iff_prefix]
      exact List.prefix_append _ r

theorem head?_take_append {n : Nat} {cs r : List Char} (h : 0 < n) (hn : n ≤ cs.length) :
    (cs.take n ++ r).head? = cs.head? := by
  cases cs with
  | nil =>
    simp only [List.length_nil] at hn
    omega
  | cons c cs =>
    cases n with
    | zero => omega
    | succ n => rfl

/-- The extent of a literal depends on nothing after it. -/
theorem bodyLength_local (hm : LocalTo bound m m') {skip n : Nat} {cs r : List Char}
    (h : bodyLength form m skip cs = .ok n) (hn : n ≤ bound) :
    bodyLength form m' skip (cs.take n ++ r) = .ok n := by
  induction cs generalizing skip n with
  | nil => cases h
  | cons c cs ih =>
    cases skip with
    | succ k =>
      obtain ⟨n, hk, rfl⟩ := map_eq_ok.1 h
      exact map_eq_ok.2 ⟨n, ih hk (by omega), rfl⟩
    | zero =>
      rw [bodyLength_zero] at h
      split at h
      · rename_i hcloser
        obtain rfl := Except.ok.inj h
        have hpre := List.isPrefixOf_iff_prefix.1 hcloser
        rw [← List.prefix_iff_eq_take.1 hpre]
        exact bodyLength_closer rfl
      rename_i hcloser
      -- Whatever is read next, it leaves room for the closer, which does not begin here either.
      have step : ∀ {n}, form.closer.length ≤ n → n ≤ cs.length →
          form.closer.isPrefixOf (c :: (cs.take n ++ r)) = false := by
        intro n hlow hhigh
        rw [List.isPrefixOf_iff_prefix] at hcloser
        rw [← Bool.not_eq_true, List.isPrefixOf_iff_prefix]
        intro hpre
        have hlen : form.closer.length ≤ (c :: cs.take n).length := by
          rw [List.length_cons, List.length_take_of_le hhigh]
          omega
        refine hcloser ?_
        rw [← List.cons_append, StringForm.prefix_append_iff hlen] at hpre
        exact hpre.trans ((List.prefix_cons_inj c).2 (List.take_prefix n cs))
      have hpos := form.closer_pos
      split at h
      · rename_i hescape
        obtain ⟨n, hk, rfl⟩ := map_eq_ok.1 h
        obtain ⟨hlow, hhigh⟩ := bodyLength_le hk
        rw [List.take_succ_cons, List.cons_append, bodyLength_zero, if_neg, if_pos hescape]
        · exact map_eq_ok.2 ⟨n, ih hk (by omega), rfl⟩
        · exact Bool.eq_false_iff.1 (step (by omega) hhigh)
      rename_i hescape
      split at h
      · rename_i hhole
        split at h
        · rename_i hole
          split at h
          · rename_i j hj
            obtain ⟨n, hk, rfl⟩ := map_eq_ok.1 h
            obtain ⟨hlow, hhigh⟩ := bodyLength_le hk
            have hinner := hm hole j hj (by omega)
              ((hole.drop j).take (n - 1 - j) ++ r)
            rw [← List.append_assoc, ← take_append_drop_take (by omega)] at hinner
            have htail := ih hk (by omega)
            obtain ⟨k, rfl⟩ : ∃ k, n = k + 1 := ⟨n - 1, by omega⟩
            rw [List.take_succ_cons, List.cons_append, bodyLength_zero, if_neg, if_neg hescape,
              if_pos hhole]
            · simp only [List.take_succ_cons, List.cons_append] at htail ⊢
              rw [Nat.add_sub_cancel] at hinner
              simp only [hinner]
              exact map_eq_ok.2 ⟨k + 1, htail, rfl⟩
            · exact Bool.eq_false_iff.1 (step (by omega) hhigh)
          · cases h
        · rename_i hbrace
          obtain ⟨n, hk, rfl⟩ := map_eq_ok.1 h
          obtain ⟨hlow, hhigh⟩ := bodyLength_le hk
          have htail := ih hk (by omega)
          rw [List.take_succ_cons, List.cons_append, bodyLength_zero, if_neg, if_neg hescape,
            if_pos hhole]
          · split
            · rename_i hole hcons
              have hhead := head?_take_append (r := r) (by omega : 0 < n) hhigh
              rw [hcons] at hhead
              cases cs with
              | nil => cases hhead
              | cons d cs =>
                obtain rfl := Option.some.inj hhead
                exact absurd rfl (hbrace cs)
            · exact map_eq_ok.2 ⟨n, htail, rfl⟩
          · exact Bool.eq_false_iff.1 (step (by omega) hhigh)
      · rename_i hhole
        obtain ⟨n, hk, rfl⟩ := map_eq_ok.1 h
        obtain ⟨hlow, hhigh⟩ := bodyLength_le hk
        rw [List.take_succ_cons, List.cons_append, bodyLength_zero, if_neg, if_neg hescape,
          if_neg hhole]
        · exact map_eq_ok.2 ⟨n, ih hk (by omega), rfl⟩
        · exact Bool.eq_false_iff.1 (step (by omega) hhigh)

/-- A sign of one character is not made longer by what may stand after it instead. -/
theorem single_local {c d : Char} {cs r' : List Char} {x : TokenKind × Nat}
    (h : ∀ t, cs ≠ d :: t) (hd : Chars.isTame d = false) (hr : Tamer cs r')
    (hx : ∀ r, (∀ t, r ≠ d :: t) → symbol? (c :: r) = some x) : symbol? (c :: r') = some x := by
  refine hx r' fun t ht => ?_
  rcases hr d (by rw [ht]; rfl) with hcs | hcs
  · cases cs with
    | nil => cases hcs
    | cons e cs =>
      obtain rfl := Option.some.inj hcs
      exact h cs rfl
  · simp [hd] at hcs

theorem symbol?_local {c : Char} {cs r' : List Char} {k : TokenKind} {n : Nat}
    (h : symbol? (c :: cs) = some (k, n)) (hr : Tamer (cs.drop (n - 1)) r') :
    symbol? (c :: (cs.take (n - 1) ++ r')) = some (k, n) := by
  unfold symbol? at h
  split at h <;> rename_i hcons <;> simp only [Option.some.injEq, Prod.mk.injEq, reduceCtorEq] at h
  all_goals
    obtain ⟨rfl, rfl⟩ := h
    obtain ⟨rfl, rfl⟩ := List.cons.inj hcons
  case h_16 =>
    exact single_local (d := '=') (by simp_all) (by decide) hr fun r h => by rwa [symbol?]
  case h_17 =>
    exact single_local (d := '=') (by simp_all) (by decide) hr fun r h => by rwa [symbol?]
  case h_18 =>
    exact single_local (d := '=') (by simp_all) (by decide) hr fun r h => by rwa [symbol?]
  case h_20 =>
    exact single_local (d := '>') (by simp_all) (by decide) hr fun r h => by rwa [symbol?]
  case h_23 =>
    exact single_local (d := '=') (by simp_all) (by decide) hr fun r h => by rwa [symbol?]
  all_goals rfl

theorem symbol?_length {c : Char} {cs : List Char} {k : TokenKind} {n : Nat}
    (h : symbol? (c :: cs) = some (k, n)) : n - 1 ≤ cs.length := by
  unfold symbol? at h
  split at h <;> rename_i hcons <;> simp only [Option.some.injEq, Prod.mk.injEq, reduceCtorEq] at h
  all_goals
    obtain ⟨rfl, rfl⟩ := h
    obtain ⟨rfl, rfl⟩ := List.cons.inj hcons
    simp

theorem scan_eq (c : Char) (cs : List Char) : scan m c cs =
    if Chars.isBlank c then .ok (.blank, (cs.takeWhile Chars.isBlank).length)
    else if Numeral.begins (c :: cs) then
      match Numeral.classify (Numeral.run (c :: cs)) with
      | some kind => .ok (.token (.number kind), (Numeral.run (c :: cs)).length - 1)
      | none => .error ⟨.malformedNumber, (Numeral.run (c :: cs)).length⟩
    else match StringForm.opening? (c :: cs) with
      | some form =>
        match bodyLength form m 0 ((c :: cs).drop form.opener.length) with
        | .ok n => .ok (.token (stringKind form), form.opener.length - 1 + n)
        | .error fault => .error ⟨fault, form.opener.length⟩
      | none =>
        if Chars.isIdentStart c then .ok (.token .ident, (cs.takeWhile Chars.isIdentPart).length)
        else match c, cs with
          | '/', '/' :: rest => .ok (.blank, 1 + (rest.takeWhile (· != '\n')).length)
          | '/', '*' :: rest =>
            match commentLength rest with
            | some n => .ok (.blank, 1 + n)
            | none => .error ⟨.unterminatedComment, 2⟩
          | _, _ =>
            match symbol? (c :: cs) with
            | some (kind, n) => .ok (.token kind, n - 1)
            | none => .error ⟨.unrecognizedCharacter, 1⟩ := rfl

theorem blank_cases {c : Char} (h : Chars.isBlank c = true) :
    c = ' ' ∨ c = '\t' ∨ c = '\r' ∨ c = '\n' ∨ c = '\x0c' := by
  simpa [Chars.isBlank, or_assoc] using h

/-- A blank begins nothing but blanks. -/
theorem blank_begins {c : Char} {cs : List Char} (h : Chars.isBlank c = true) :
    Numeral.begins (c :: cs) = false ∧ StringForm.opening? (c :: cs) = none ∧
      Chars.isIdentStart c = false ∧ symbol? (c :: cs) = none := by
  obtain rfl | rfl | rfl | rfl | rfl := blank_cases h <;>
    exact ⟨rfl, by rw [StringForm.opening?_cons]; rfl, by decide, rfl⟩

theorem not_blank_of {c : Char} (h : Chars.isBlank c = true → False) : Chars.isBlank c = false := by
  cases hc : Chars.isBlank c with
  | false => rfl
  | true => exact (h hc).elim

theorem Reads.not_blank {c : Char} {cs : List Char} {k : TokenKind} {n : Nat}
    (h : Reads m c cs k n) : Chars.isBlank c = false := by
  refine not_blank_of fun hc => ?_
  obtain ⟨h1, h2, h3, h4⟩ := @blank_begins c cs hc
  cases h with
  | number hb => simp [h1] at hb
  | string _ ho => simp [h2] at ho
  | ident _ hi => simp [h3] at hi
  | symbol _ _ _ _ hs => simp [h4] at hs

theorem symbol?_not_tick {c : Char} {cs : List Char} {x : TokenKind × Nat}
    (h : symbol? (c :: cs) = some x) : c ≠ '`' := by
  rintro rfl
  simp [symbol?] at h

/-- A word begins with a letter, an underscore or a dollar sign, and so with no digit. -/
theorem identStart_begins {c : Char} {cs : List Char} (h : Chars.isIdentStart c = true) :
    Numeral.begins (c :: cs) = false := by
  have hpoint : c ≠ '.' := by
    rintro rfl
    exact absurd h (by decide)
  rw [Numeral.begins_of_ne hpoint, Chars.identStart_not_digit h]

theorem scan_of_reads {c : Char} {cs : List Char} {k : TokenKind} {n : Nat}
    (h : Reads m c cs k n) : scan m c cs = .ok (.token k, n) := by
  have hblank := h.not_blank
  rw [scan_eq, if_neg (by simp [hblank])]
  cases h with
  | number hb hk => rw [if_pos hb, hk]
  | string hb ho hl =>
    rw [if_neg (by simp [hb]), ho]
    simp only [hl]
  | ident ho hc =>
    rw [if_neg (by simp [identStart_begins hc]), ho]
    simp only [hc, if_true]
  | symbol hb ho hc hn hs =>
    rw [if_neg (by simp [hb]), ho]
    dsimp only
    rw [if_neg (by simp [hc])]
    split
    · exact absurd rfl (hn '/' rfl rfl).1
    · exact absurd rfl (hn '*' rfl rfl).2
    · simp only [hs]

theorem Reads.le {c : Char} {cs : List Char} {k : TokenKind} {n : Nat} (h : Reads m c cs k n) :
    n ≤ cs.length := by
  cases h with
  | number hb hk =>
    have := (Numeral.run_isPrefix (c :: cs)).length_le
    simp only [List.length_cons] at this
    omega
  | @string form n hb ho hl =>
    have hbody := (bodyLength_le hl).2
    have hopener := form.opener_pos
    have hlong := (StringForm.opening?_isPrefix ho).length_le
    rw [List.length_drop, List.length_cons] at hbody
    rw [List.length_cons] at hlong
    omega
  | ident ho hc => exact (List.takeWhile_prefix _).length_le
  | symbol hb ho hc hn hs => exact symbol?_length hs

theorem eq_of_isPrefix {p w r : List Char} (h : p <+: w ++ r) (hl : p.length = w.length) : p = w :=
  (List.prefix_of_prefix_length_le h (List.prefix_append w r) (by omega)).eq_of_length hl

theorem stringKind_plain (form : StringForm) :
    stringKind form ≠ .ident ∧ ∀ kind, stringKind form ≠ .number kind := by
  cases form <;> exact ⟨nofun, nofun⟩

/-- A sign or a string is read again where something tamer follows it. -/
theorem Reads.local_tame {c : Char} {w r r' : List Char} {k : TokenKind} {n : Nat}
    (h : Reads m c (w ++ r) k n) (hk : k ≠ .ident ∧ ∀ kind, k ≠ .number kind) (hw : n = w.length)
    (hm : LocalTo bound m m') (hn : n ≤ bound) (hr : Tamer r r') : Reads m' c (w ++ r') k n := by
  have htamer := hr.append w
  cases h with
  | number => exact absurd rfl (hk.2 _)
  | ident => exact absurd rfl hk.1
  | @string form n hb ho hl =>
    have hopener := form.opener_pos
    have hcloser := form.closer_pos
    have hlow := (bodyLength_le hl).1
    have hpre : form.opener <+: c :: w :=
      List.prefix_of_prefix_length_le (StringForm.opening?_isPrefix ho)
        (List.prefix_append (c :: w) r) (by rw [List.length_cons]; omega)
    obtain ⟨body, hbody⟩ := hpre
    have hlen : n = body.length := by
      have := congrArg List.length hbody
      rw [List.length_append, List.length_cons] at this
      omega
    have hdrop : ∀ x, (c :: (w ++ x)).drop form.opener.length = body ++ x := by
      intro x
      rw [← List.cons_append, ← hbody, List.append_assoc, List.drop_left]
    rw [hdrop] at hl
    refine .string (Numeral.begins_local hb htamer) ?_ ?_
    · refine @StringForm.opening?_some_local form (c :: w) _ _ ho ?_ hr
      rw [List.length_cons]
      omega
    · have hlocal := bodyLength_local (r := r') hm hl (by omega)
      rw [hlen, List.take_left] at hlocal
      rw [hdrop, hlocal, hlen]
  | symbol hb ho hc hcomment hs =>
    have hlocal := @symbol?_local _ _ r' _ _ hs (by rwa [hw, List.drop_left])
    rw [hw, List.take_left] at hlocal
    refine .symbol (Numeral.begins_local hb htamer)
      (StringForm.opening?_none_local ho (symbol?_not_tick hs) htamer) hc ?_ hlocal
    intro d hd hslash
    rcases htamer d hd with hd' | hd'
    · exact hcomment d hd' hslash
    · constructor <;>
      · rintro rfl
        exact absurd hd' (by decide)

/-- A token is read again where something calmer follows it. -/
theorem Reads.local {c : Char} {w r r' : List Char} {k : TokenKind} {n : Nat}
    (h : Reads m c (w ++ r) k n) (hw : n = w.length) (hm : LocalTo bound m m') (hn : n ≤ bound)
    (hr : Calmer r r') : Reads m' c (w ++ r') k n := by
  cases h with
  | @number kind hb hk =>
    have hne := Numeral.run_ne_nil hb
    have hrun : Numeral.run (c :: w ++ r) = c :: w := by
      refine eq_of_isPrefix (Numeral.run_isPrefix _) ?_
      have := List.length_pos_iff.2 hne
      simp only [List.cons_append, List.length_cons] at hw this ⊢
      omega
    have hrun' := Numeral.run_local hrun hr
    rw [List.cons_append] at hrun hrun'
    have hb' : Numeral.begins (c :: (w ++ r')) = true := by
      by_cases hpoint : c = '.'
      · subst hpoint
        cases w with
        | nil =>
          rw [List.nil_append] at hk hrun
          rw [hrun] at hk
          exact absurd hk (by decide +revert)
        | cons d w => exact hb
      · rw [Numeral.begins_of_ne hpoint] at hb ⊢
        exact hb
    rw [hrun, ← hrun']
    exact .number hb' (by rw [hrun', ← hrun]; exact hk)
  | ident ho hc =>
    have htake := eq_of_isPrefix (List.takeWhile_prefix _) hw
    have hlocal := takeWhile_local htake (hr.ends Chars.calm_not_identPart)
    rw [htake, ← congrArg List.length hlocal]
    refine .ident (StringForm.opening?_none_local ho ?_ (hr.append _).tamer) hc
    rintro rfl
    exact absurd hc (by decide)
  | string hb ho hl =>
    exact (Reads.string hb ho hl).local_tame (stringKind_plain _) hw hm hn hr.tamer
  | symbol hb ho hc hcomment hs =>
    obtain ⟨-, hident, -, hnumber⟩ := symbol?_kind hs
    exact (Reads.symbol hb ho hc hcomment hs).local_tame ⟨hident, hnumber⟩ hw hm hn hr.tamer

theorem commentLength_local {cs r : List Char} {n : Nat} (h : commentLength cs = some n) :
    (2 ≤ n ∧ n ≤ cs.length) ∧ commentLength (cs.take n ++ r) = some n := by
  fun_induction commentLength cs generalizing n with
  | case1 => cases h
  | case2 cs =>
    obtain rfl := Option.some.inj h
    exact ⟨by simp, rfl⟩
  | case3 c cs hnot ih =>
    obtain ⟨n, hn, rfl⟩ := Option.map_eq_some_iff.1 h
    obtain ⟨⟨hlow, hle⟩, hlocal⟩ := ih hn
    refine ⟨⟨by omega, by simpa using hle⟩, ?_⟩
    rw [List.take_succ_cons, List.cons_append, commentLength.eq_3, hlocal]
    · rfl
    · intro cs' hc hcs
      subst hc
      cases cs with
      | nil => cases hn
      | cons d cs =>
        obtain ⟨n, rfl⟩ : ∃ k, n = k + 1 := ⟨n - 1, by omega⟩
        obtain ⟨rfl, -⟩ := List.cons.inj hcs
        exact hnot cs rfl rfl

/-- A comment, which is the one lexeme without a token that begins with no blank. -/
inductive Comments : List Char → Nat → Prop
  | line (cs : List Char) : Comments ('/' :: cs) (1 + (cs.takeWhile (· != '\n')).length)
  | block {cs : List Char} {n : Nat} (h : commentLength cs = some n) : Comments ('*' :: cs) (1 + n)

theorem scan_blank_iff {c : Char} {cs : List Char} {n : Nat} (hc : Chars.isBlank c = false) :
    scan m c cs = .ok (.blank, n) ↔ c = '/' ∧ Comments cs n := by
  constructor
  · intro h
    rw [scan_eq, if_neg (by simp [hc])] at h
    split at h
    · split at h <;> simp at h
    split at h
    · split at h <;> simp at h
    split at h
    · simp at h
    split at h
    · obtain rfl := (Prod.mk.inj (Except.ok.inj h)).2
      exact ⟨rfl, .line _⟩
    · split at h
      · rename_i hlen
        obtain rfl := (Prod.mk.inj (Except.ok.inj h)).2
        exact ⟨rfl, .block hlen⟩
      · cases h
    · split at h <;> simp at h
  · rintro ⟨rfl, h⟩
    have ho : StringForm.opening? ('/' :: cs) = none := by
      rw [StringForm.opening?_cons]
      rfl
    rw [scan_eq, if_neg (by simp [hc]),
      if_neg (by rw [Numeral.begins_of_ne (by decide)]; decide), ho]
    dsimp only
    rw [if_neg (by decide)]
    cases h with
    | line => rfl
    | block h => simp only [h]

theorem Comments.le {cs : List Char} {n : Nat} (h : Comments cs n) : n ≤ cs.length := by
  cases h with
  | line cs =>
    have := (List.takeWhile_prefix (l := cs) (· != '\n')).length_le
    rw [List.length_cons]
    omega
  | block h =>
    have := (commentLength_local (r := []) h).1
    rw [List.length_cons]
    omega

theorem Comments.local {w r r' : List Char} {n : Nat} (h : Comments (w ++ r) n)
    (hw : n = w.length) (hr : Milder r r') : Comments (w ++ r') n := by
  generalize hcs : w ++ r = cs at h
  cases w with
  | nil =>
    cases h <;> simp only [List.length_nil] at hw <;> omega
  | cons d w =>
    cases h with
    | line cs =>
      have hrest : w ++ r = cs := (List.cons.inj hcs).2
      obtain rfl := (List.cons.inj hcs).1
      subst hrest
      have hlen : ((w ++ r).takeWhile (· != '\n')).length = w.length := by
        rw [List.length_cons] at hw
        omega
      have hlocal := takeWhile_local (eq_of_isPrefix (List.takeWhile_prefix _) hlen)
        fun c hc => (hr c hc).imp_right fun hbreak => by rw [hbreak]; rfl
      rw [hlen, ← congrArg List.length hlocal]
      exact .line _
    | @block cs n h =>
      have hrest : w ++ r = cs := (List.cons.inj hcs).2
      obtain rfl := (List.cons.inj hcs).1
      subst hrest
      have hlen : n = w.length := by
        rw [List.length_cons] at hw
        omega
      have hlocal := (commentLength_local (r := r') h).2
      rw [hlen, List.take_left] at hlocal
      rw [hlen]
      exact .block hlocal

theorem scan_le {c : Char} {cs : List Char} {lexeme : Lexeme} {n : Nat}
    (h : scan m c cs = .ok (lexeme, n)) : n ≤ cs.length := by
  cases lexeme with
  | token k => exact (reads_of_scan h).le
  | blank =>
    cases hc : Chars.isBlank c with
    | false => exact ((scan_blank_iff hc).1 h).2.le
    | true =>
      rw [scan_eq, if_pos hc] at h
      obtain rfl := (Prod.mk.inj (Except.ok.inj h)).2
      exact (List.takeWhile_prefix _).length_le

theorem scan_blank_stops {c : Char} {w r : List Char} {lexeme : Lexeme}
    (hc : Chars.isBlank c = true) (h : scan m c (w ++ r) = .ok (lexeme, w.length)) :
    ∀ d ∈ r.head?, Chars.isBlank d = false := by
  rw [scan_eq, if_pos hc] at h
  have hlen := (Prod.mk.inj (Except.ok.inj h)).2
  exact (takeWhile_append_iff.1 (eq_of_isPrefix (List.takeWhile_prefix _) hlen)).2

/-- A lexeme is read again where something milder follows it, blanks apart. -/
theorem scan_local {c : Char} {w r r' : List Char} {lexeme : Lexeme}
    (h : scan m c (w ++ r) = .ok (lexeme, w.length)) (hm : LocalTo bound m m')
    (hn : w.length ≤ bound) (hr : Milder r r')
    (hc : Chars.isBlank c = false ∨ ∀ d ∈ r'.head?, Chars.isBlank d = false) :
    scan m' c (w ++ r') = .ok (lexeme, w.length) := by
  cases lexeme with
  | token k => exact scan_of_reads ((reads_of_scan h).local rfl hm hn hr.calmer)
  | blank =>
    cases hb : Chars.isBlank c with
    | false =>
      obtain ⟨hslash, hcomments⟩ := (scan_blank_iff hb).1 h
      exact (scan_blank_iff hb).2 ⟨hslash, hcomments.local rfl hr⟩
    | true =>
      rw [scan_eq, if_pos hb] at h ⊢
      have hlen := (Prod.mk.inj (Except.ok.inj h)).2
      have hw := takeWhile_append_iff.1 (eq_of_isPrefix (List.takeWhile_prefix _) hlen)
      have htake := takeWhile_append_iff.2 ⟨hw.1, hc.resolve_left (by simp [hb])⟩
      rw [htake]

theorem scan_closeBrace {c : Char} {cs : List Char} {n : Nat}
    (h : scan m c cs = .ok (.token .closeBrace, n)) : c = '}' ∧ n = 0 := by
  generalize hk : TokenKind.closeBrace = k at h
  cases reads_of_scan h with
  | number => cases hk
  | @string form => cases form <;> cases hk
  | ident => cases hk
  | symbol _ _ _ _ hs =>
    subst hk
    unfold symbol? at hs
    split at hs <;> rename_i hcons <;> cases hs
    exact ⟨(List.cons.inj hcons).1, rfl⟩

theorem closeBrace_reads (cs : List Char) : scan m '}' cs = .ok (.token .closeBrace, 0) := by
  refine scan_of_reads (.symbol (n := 1) ?_ ?_ ?_ ?_ rfl)
  · rw [Numeral.begins_of_ne (by decide)]
    decide
  · rw [StringForm.opening?_cons]
    rfl
  · decide
  · intro d _ hd
    exact absurd hd (by decide)

end Lexeme

/-- How many braces are open after a lexeme, unless it closes the hole. -/
def Lexeme.braces : Lexeme → Nat → Option Nat
  | .token .closeBrace, 0 => none
  | .token .closeBrace, k + 1 => some k
  | .token .openBrace, k => some (k + 1)
  | _, k => some k

theorem holeLengthWithin_succ (bound braces : Nat) (c : Char) (cs : List Char) :
    holeLengthWithin (bound + 1) braces (c :: cs) =
      match Lexeme.scan (holeLengthWithin bound 0) c cs with
      | .error misfit => .error misfit.fault
      | .ok (lexeme, n) =>
        match lexeme.braces braces with
        | none => .ok (n + 1)
        | some k => (· + (n + 1)) <$> holeLengthWithin bound k (cs.drop n) := by
  rw [holeLengthWithin]
  cases Lexeme.scan (holeLengthWithin bound 0) c cs with
  | error => rfl
  | ok x =>
    obtain ⟨lexeme, n⟩ := x
    cases lexeme with
    | blank => rfl
    | token k => cases k <;> first | rfl | (cases braces <;> rfl)

/-- The extent of a hole depends on nothing after it, and as many steps as it has characters are
enough to find it. -/
theorem holeLengthWithin_local {bound braces n : Nat} {cs : List Char}
    (h : holeLengthWithin bound braces cs = .ok n) :
    (0 < n ∧ n ≤ cs.length) ∧
      ∀ bound', n ≤ bound' → ∀ r, holeLengthWithin bound' braces (cs.take n ++ r) = .ok n := by
  induction bound generalizing braces n cs with
  | zero => cases cs <;> cases h
  | succ bound ih =>
    cases cs with
    | nil => cases h
    | cons c cs =>
      have hm : ∀ b, LocalTo b (holeLengthWithin bound 0) (holeLengthWithin b 0) :=
        fun b cs' k hk hb => (ih hk).2 b hb
      have hcons : ∀ k (r : List Char), (c :: cs).take (k + 1) ++ r = c :: (cs.take k ++ r) :=
        fun _ _ => rfl
      rw [holeLengthWithin_succ] at h
      split at h
      · cases h
      rename_i lexeme k hscan
      split at h
      · rename_i hclose
        obtain rfl := Except.ok.inj h
        obtain rfl : lexeme = .token .closeBrace := by
          unfold Lexeme.braces at hclose
          split at hclose <;> first | rfl | cases hclose
        obtain ⟨rfl, rfl⟩ := Lexeme.scan_closeBrace hscan
        refine ⟨⟨by omega, by simp⟩, fun bound' hb r => ?_⟩
        obtain ⟨j, rfl⟩ : ∃ j, bound' = j + 1 := ⟨bound' - 1, by omega⟩
        rw [hcons, holeLengthWithin_succ, Lexeme.closeBrace_reads]
        simp only [hclose]
      · rename_i braces' hopen
        obtain ⟨n, hrest, rfl⟩ := map_eq_ok.1 h
        obtain ⟨⟨hpos, hle⟩, hlocal⟩ := ih hrest
        have hk := Lexeme.scan_le hscan
        have hw : (cs.take k).length = k := List.length_take_of_le hk
        rw [List.length_drop] at hle
        refine ⟨⟨by omega, by rw [List.length_cons]; omega⟩, fun bound' hb r => ?_⟩
        obtain ⟨j, rfl⟩ : ∃ j, bound' = j + 1 := ⟨bound' - 1, by omega⟩
        have hhead := @Lexeme.head?_take_append n (cs.drop k) r hpos
          (by rw [List.length_drop]; omega)
        have htake : cs.take (n + k) ++ r = cs.take k ++ ((cs.drop k).take n ++ r) := by
          rw [Nat.add_comm, List.take_add, List.append_assoc]
        have hsplit : Lexeme.scan (holeLengthWithin bound 0) c (cs.take k ++ cs.drop k) =
            .ok (lexeme, (cs.take k).length) := by
          rwa [List.take_append_drop, hw]
        have hblank : Chars.isBlank c = false ∨
            ∀ d ∈ ((cs.drop k).take n ++ r).head?, Chars.isBlank d = false := by
          rw [hhead]
          cases hc : Chars.isBlank c with
          | false => exact .inl rfl
          | true => exact .inr (Lexeme.scan_blank_stops hc hsplit)
        have hscan' := Lexeme.scan_local hsplit (hm j) (by omega) (milder_same hhead) hblank
        rw [← Nat.add_assoc, hcons, htake, holeLengthWithin_succ, hscan', hw]
        simp only [hopen]
        rw [List.drop_left' hw]
        exact map_eq_ok.2 ⟨n, hlocal j (by omega) r, rfl⟩

theorem holeLength_local (bound : Nat) : LocalTo bound holeLength holeLength := by
  intro cs n h _ r
  obtain ⟨⟨-, hle⟩, hlocal⟩ := holeLengthWithin_local h
  refine hlocal _ ?_ r
  rw [List.length_append, List.length_take_of_le hle]
  omega

end Script
