import Mathlib.Algebra.Group.Even
import Mathlib.Algebra.Ring.Parity
import Script.Proofs.Bytes.Tokens
import Script.Proofs.NumberTokens

/-!
Where a plain string ends. The scanner takes a character along with the backslash before it, and the
walk over the bytes leaves out one byte there, which may be the first of several. What they find is
told by the text alone: the first quote with an even number of backslashes right before it.
-/
namespace Script

open Chars

/-- The number of backslashes that a text ends with. -/
def Chars.backslashes (cs : List Char) : Nat := (cs.reverse.takeWhile (· == '\\')).length

/-- In the text after an opener, `w` stands before a closer that is not escaped. -/
structure Closes (form : StringForm) (body w : List Char) : Prop where
  front : w ++ form.closer <+: body
  even : Even (backslashes w)

/-- The same, where no earlier closer will do. -/
structure ClosesFirst (form : StringForm) (body w : List Char) : Prop extends
    Closes form body w where
  least : ∀ v, Closes form body v → w.length ≤ v.length

/-- What the length of a literal after its opener has to be, and why there is none. -/
def Ends (form : StringForm) (body : List Char) : Except LexFault Nat → Prop
  | .ok n => ∃ w, ClosesFirst form body w ∧ n = (w ++ form.closer).length
  | .error fault => fault = .unterminatedString ∧ ∀ v, ¬ Closes form body v

/-- No closer ends in `pre`, and those after it are escaped as they were without it. -/
def Passes (form : StringForm) (pre cs : List Char) : Prop :=
  ∀ v, Closes form (pre ++ cs) v ↔ ∃ w, v = pre ++ w ∧ Closes form cs w

namespace Chars

theorem backslashes_cons (c : Char) (w : List Char) :
    backslashes (c :: w) =
      if backslashes w = w.length ∧ c = '\\' then backslashes w + 1 else backslashes w := by
  have hsplit : (c :: w).reverse.takeWhile (· == '\\') =
      if backslashes w = w.length then w.reverse ++ [c].takeWhile (· == '\\')
      else w.reverse.takeWhile (· == '\\') := by
    rw [List.reverse_cons, List.takeWhile_append, List.length_reverse]
    rfl
  rw [backslashes, hsplit]
  by_cases hall : backslashes w = w.length
  · by_cases hc : c = '\\'
    · simp [hall, hc]
    · simp [hall, hc]
  · rw [if_neg hall, if_neg (fun h => hall h.1)]
    rfl

theorem backslashes_cons_of_ne {c : Char} (hc : c ≠ '\\') (w : List Char) :
    backslashes (c :: w) = backslashes w := by
  rw [backslashes_cons, if_neg (fun h => hc h.2)]

/-- A backslash and what it escapes do not change whether a closer after them is escaped. -/
theorem even_backslashes_escape (e : Char) (w : List Char) :
    Even (backslashes ('\\' :: e :: w)) ↔ Even (backslashes w) := by
  have hle : backslashes w ≤ w.length := by
    have h := (List.takeWhile_prefix (l := w.reverse) (· == '\\')).length_le
    rwa [List.length_reverse] at h
  rw [backslashes_cons '\\', backslashes_cons e, List.length_cons]
  by_cases hall : backslashes w = w.length ∧ e = '\\'
  · have htwo : backslashes w + 1 + 1 = backslashes w + 2 := rfl
    rw [if_pos hall, if_pos ⟨by omega, rfl⟩, htwo, Nat.even_add]
    simp
  · rw [if_neg hall, if_neg (fun h => by omega)]

end Chars

variable {form : StringForm} {m : HoleMeasure} {pre cs body v w : List Char} {c : Char}

namespace StringForm

/-- A form without holes has one quote as its opener and its closer. -/
theorem plain_cases (h : form.hasHoles = false) :
    form.hasEscapes = true ∧ ∃ q, form.opener = [q] ∧ form.closer = [q] ∧
      (form = double ∧ q = '"' ∨ form = single ∧ q = '\'') := by
  cases form with
  | double => exact ⟨rfl, '"', rfl, rfl, .inl ⟨rfl, rfl⟩⟩
  | single => exact ⟨rfl, '\'', rfl, rfl, .inr ⟨rfl, rfl⟩⟩
  | _ => cases h

end StringForm

theorem Closes.ne_nil (h : Closes form body w) : body ≠ [] := by
  rintro rfl
  have hnil := List.prefix_nil.1 h.front
  have hpos := form.closer_pos
  rw [(List.append_eq_nil_iff.1 hnil).2] at hpos
  exact Nat.lt_irrefl 0 hpos

theorem ends_nil : Ends form [] (.error .unterminatedString) :=
  ⟨rfl, fun _ h => h.ne_nil rfl⟩

/-- A closer at the front is the first. -/
theorem ends_closer (h : form.closer <+: body) : Ends form body (.ok form.closer.length) := by
  refine ⟨[], ⟨⟨by rwa [List.nil_append], ?_⟩, fun v _ => Nat.zero_le _⟩, rfl⟩
  exact ⟨0, rfl⟩

/-- What is found behind a text that is passed over. -/
theorem Ends.after {x : Except LexFault Nat} (hpass : Passes form pre cs) (h : Ends form cs x) :
    Ends form (pre ++ cs) ((· + pre.length) <$> x) := by
  cases x with
  | error fault =>
    obtain ⟨hfault, hnone⟩ := h
    refine ⟨hfault, fun v hv => ?_⟩
    obtain ⟨w, rfl, hw⟩ := (hpass v).1 hv
    exact hnone w hw
  | ok n =>
    obtain ⟨w, hw, rfl⟩ := h
    refine ⟨pre ++ w, ⟨(hpass _).2 ⟨w, rfl, hw.toCloses⟩, ?_⟩, ?_⟩
    · intro v hv
      obtain ⟨u, rfl, hu⟩ := (hpass v).1 hv
      have hleast := hw.least u hu
      rw [List.length_append, List.length_append]
      omega
    · simp only [List.length_append]
      omega

/-- A character that neither closes nor escapes is passed over. -/
theorem passes_plain (hclose : ¬ form.closer <+: c :: cs) (hc : c ≠ '\\') :
    Passes form [c] cs := by
  intro v
  constructor
  · rintro ⟨hfront, heven⟩
    cases v with
    | nil => exact absurd hfront hclose
    | cons d w =>
      rw [List.cons_append, List.singleton_append, List.cons_prefix_cons] at hfront
      obtain ⟨rfl, hfront⟩ := hfront
      rw [backslashes_cons_of_ne hc] at heven
      exact ⟨w, rfl, hfront, heven⟩
  · rintro ⟨w, rfl, hfront, heven⟩
    refine ⟨(List.prefix_cons_inj c).2 hfront, ?_⟩
    rwa [List.singleton_append, backslashes_cons_of_ne hc]

/-- A backslash is passed over together with the character that it escapes. -/
theorem passes_escape (hform : form.hasHoles = false) (e : Char) (cs : List Char) :
    Passes form ['\\', e] cs := by
  obtain ⟨-, q, -, hcloser, hq⟩ := StringForm.plain_cases hform
  have hslash : q ≠ '\\' := by
    rcases hq with ⟨-, rfl⟩ | ⟨-, rfl⟩ <;> decide
  intro v
  constructor
  · rintro ⟨hfront, heven⟩
    rw [hcloser] at hfront
    match v with
    | [] => exact absurd (List.cons_prefix_cons.1 hfront).1 hslash
    | [d] =>
      obtain ⟨rfl, -⟩ := List.cons_prefix_cons.1 hfront
      exact absurd heven (by decide)
    | d :: d' :: w =>
      simp only [List.cons_append, List.nil_append, List.cons_prefix_cons] at hfront
      obtain ⟨rfl, rfl, hfront⟩ := hfront
      refine ⟨w, rfl, ?_, (even_backslashes_escape d' w).1 heven⟩
      rwa [hcloser]
  · rintro ⟨w, rfl, hfront, heven⟩
    refine ⟨?_, (even_backslashes_escape e w).2 heven⟩
    rw [List.append_assoc]
    exact (List.prefix_append_right_inj _).2 hfront

/-- A backslash at the end of the text leaves no room for a closer. -/
theorem ends_backslash (hform : form.hasHoles = false) :
    Ends form ['\\'] (.error .unterminatedString) := by
  obtain ⟨-, q, -, hcloser, hq⟩ := StringForm.plain_cases hform
  refine ⟨rfl, ?_⟩
  rintro v ⟨hfront, -⟩
  rw [hcloser] at hfront
  have hlen := hfront.length_le
  rw [List.length_append, List.length_singleton, List.length_singleton] at hlen
  obtain rfl := List.length_eq_zero_iff.1 (by omega : v.length = 0)
  obtain ⟨rfl, -⟩ := List.cons_prefix_cons.1 hfront
  rcases hq with ⟨-, hq⟩ | ⟨-, hq⟩ <;> cases hq

/-- The scanner finds the first closer that is not escaped, or that there is none. -/
theorem ends_bodyLength (hform : form.hasHoles = false) (body : List Char) :
    Ends form body (Lexeme.bodyLength form m 0 body) := by
  obtain ⟨hescapes, -⟩ := StringForm.plain_cases hform
  -- An escape takes two characters at once, so the induction is on the length of the text.
  induction hn : body.length using Nat.strong_induction_on generalizing body with
  | _ n ih =>
    subst hn
    cases body with
    | nil => exact ends_nil
    | cons c cs =>
      rw [Lexeme.bodyLength_zero]
      by_cases hclose : form.closer.isPrefixOf (c :: cs) = true
      · rw [if_pos hclose]
        exact ends_closer (List.isPrefixOf_iff_prefix.1 hclose)
      rw [if_neg hclose]
      by_cases hc : c = '\\'
      · subst hc
        rw [if_pos (by simp [hescapes])]
        cases cs with
        | nil => exact ends_backslash hform
        | cons e cs =>
          have hrest := ih cs.length (by simp only [List.length_cons]; omega) cs rfl
          have hafter := hrest.after (passes_escape hform e cs)
          rw [Bytes.bodyLength_skip, List.drop_succ_cons, List.drop_zero]
          cases hx : Lexeme.bodyLength form m 0 cs with
          | error fault => rwa [hx] at hafter
          | ok k => rwa [hx] at hafter
      · rw [if_neg (by simp [hc]), if_neg (by simp [hform])]
        rw [List.isPrefixOf_iff_prefix] at hclose
        exact (ih cs.length (by simp) cs rfl).after (passes_plain hclose hc)

namespace StringForm

theorem opening?_plain (hform : form.hasHoles = false) (body : List Char) :
    opening? (form.opener ++ body) = some form := by
  obtain ⟨-, q, hopener, -, hq⟩ := plain_cases hform
  rw [hopener, List.singleton_append, opening?_eq_some]
  rcases hq with ⟨rfl, rfl⟩ | ⟨rfl, rfl⟩ <;> rfl

end StringForm

/-- At the opener of a plain string, the scanner goes by where the string ends. -/
theorem Lexeme.scan_plain {q : Char} (hform : form.hasHoles = false) (hq : form.opener = [q])
    (body : List Char) :
    scan holeLength q body =
      match bodyLength form holeLength 0 body with
      | .ok n => .ok (.token .plainString, n)
      | .error fault => .error ⟨fault, 1⟩ := by
  have hopening := StringForm.opening?_plain hform body
  obtain ⟨-, q', hopener, -, hforms⟩ := StringForm.plain_cases hform
  obtain rfl : q = q' := by simpa [hq] using hopener
  have hblank : isBlank q = false := by
    rcases hforms with ⟨-, rfl⟩ | ⟨-, rfl⟩ <;> decide
  have hbegins : Numeral.begins (q :: body) = false := by
    rcases hforms with ⟨-, rfl⟩ | ⟨-, rfl⟩ <;> rw [Numeral.begins_of_ne (by decide)] <;> decide
  have hkind : stringKind form = .plainString := by
    rcases hforms with ⟨rfl, -⟩ | ⟨rfl, -⟩ <;> rfl
  have hdrop : (q :: body).drop form.opener.length = body := by rw [hq]; rfl
  rw [hq, List.singleton_append] at hopening
  rw [scan_eq, if_neg (by simp [hblank]), if_neg (by simp [hbegins]), hopening]
  simp only [hdrop]
  cases bodyLength form holeLength 0 body with
  | ok n => simp only [hq, hkind, List.length_singleton, Nat.sub_self, Nat.zero_add]
  | error fault => simp only [hq, List.length_singleton]

namespace Lexed

variable {pos : Nat} {newline : Bool} {rest : List Char}

theorem scanFrom_plain (hform : form.hasHoles = false)
    (hn : Lexeme.bodyLength form holeLength 0 (w ++ rest) = .ok w.length) :
    scanFrom 0 pos newline (form.opener ++ (w ++ rest)) =
      ⟨⟨.plainString, String.ofList (form.opener ++ w), pos, newline⟩ ::
          (scanFrom 0 (pos + byteLength (form.opener ++ w)) false rest).tokens,
        (scanFrom 0 (pos + byteLength (form.opener ++ w)) false rest).last⟩ := by
  obtain ⟨-, q, hq, -⟩ := StringForm.plain_cases hform
  have hscan := Lexeme.scan_plain hform hq (w ++ rest)
  rw [hn] at hscan
  rw [hq, List.singleton_append, List.singleton_append]
  exact scanFrom_token hscan

theorem scanFrom_unterminated {fault : LexFault} (hform : form.hasHoles = false)
    (hfault : Lexeme.bodyLength form holeLength 0 body = .error fault) :
    scanFrom 0 pos newline (form.opener ++ body) = ⟨[], .error ⟨fault, pos, pos + 1⟩⟩ := by
  obtain ⟨-, q, hq, -, hforms⟩ := StringForm.plain_cases hform
  have hscan := Lexeme.scan_plain hform hq body
  have hsize : q.utf8Size = 1 := by rcases hforms with ⟨-, rfl⟩ | ⟨-, rfl⟩ <;> rfl
  rw [hfault] at hscan
  rw [hq, List.singleton_append, scanFrom]
  simp only [hscan, List.take_succ_cons, List.take_zero, byteLength, hsize]

end Lexed

/-- Where a plain string is opened behind blanks and comments, a reader in any state hands out the
text up to the first closer with an even number of backslashes right before it. If there is none,
the reader stops with an error over the opener alone. The walk over the bytes finds the same end. -/
theorem Lexer.next_plainString {l : Lexer} {gap body : List Char} {form : StringForm}
    (hopen : l.done = false) (hform : form.hasHoles = false)
    (hrest : l.rest = gap ++ (form.opener ++ body)) (hgap : Gap (form.opener ++ body) gap) :
    ((∃ v, Closes form body v) →
      ∃ w, ClosesFirst form body w ∧
        l.next.1 = some (.ok ⟨.plainString, String.ofList (form.opener ++ (w ++ form.closer)),
          l.position + byteLength gap, gap.contains '\n'⟩) ∧
        ∀ bound, body.length ≤ bound →
          Bytes.scanBody form (Bytes.holeWithin bound) body 0 =
            .ok (.ok (byteLength (w ++ form.closer)))) ∧
      ((∀ v, ¬ Closes form body v) →
        l.next.1 = some (.error ⟨.unterminatedString, l.position + byteLength gap,
          l.position + byteLength gap + 1⟩) ∧
        l.next.2.done = true ∧
        ∀ bound, body.length ≤ bound →
          Bytes.scanBody form (Bytes.holeWithin bound) body 0 =
            .ok (.error .unterminatedString)) := by
  obtain ⟨hanswer, hdone⟩ := next_first hopen
  rw [hrest, Lexed.scanFrom_gap hgap, Bool.false_or] at hanswer hdone
  have hends := ends_bodyLength (m := holeLength) hform body
  have hbytes : ∀ bound, body.length ≤ bound →
      Bytes.scanBody form (Bytes.holeWithin bound) body 0 =
        .ok (Bytes.inBytes body (Lexeme.bodyLength form holeLength 0 body)) :=
    fun bound hbound => Bytes.scanBody_ok (Bytes.measures_holeWithin bound) hbound
  cases hlength : Lexeme.bodyLength form holeLength 0 body with
  | ok n =>
    rw [hlength] at hends hbytes
    obtain ⟨w, hw, rfl⟩ := hends
    refine ⟨fun _ => ⟨w, hw, ?_, ?_⟩, fun hnone => absurd hw.toCloses (hnone w)⟩
    · obtain ⟨rest, rfl⟩ := hw.front
      rw [Lexed.scanFrom_plain hform hlength] at hanswer
      exact hanswer
    · intro bound hbound
      rw [hbytes bound hbound]
      show Except.ok (Except.ok (byteLength (body.take _))) = _
      rw [← List.prefix_iff_eq_take.1 hw.front]
  | error fault =>
    rw [hlength] at hends hbytes
    obtain ⟨rfl, hnone⟩ := hends
    refine ⟨fun ⟨v, hv⟩ => absurd hv (hnone v), fun _ => ⟨?_, ?_, hbytes⟩⟩
    · rw [Lexed.scanFrom_unterminated hform hlength] at hanswer
      exact hanswer
    · rw [Lexed.scanFrom_unterminated hform hlength] at hdone
      exact hdone.2 rfl

/-- Neither the character of two bytes behind a backslash nor the escaped quote ends this string. -/
theorem Lexer.next_plainString_escaped :
    let body := "\\é\\\"a\" b".toList
    let l : Lexer := ⟨2, ' ' :: '"' :: body, false⟩
    Closes .double body "\\é\\\"a".toList ∧ ∃ w, ClosesFirst .double body w ∧
      l.next.1 = some (.ok ⟨.plainString, String.ofList ('"' :: (w ++ ['"'])), 3, false⟩) ∧
      ∀ bound, body.length ≤ bound →
        Bytes.scanBody .double (Bytes.holeWithin bound) body 0 =
          .ok (.ok (byteLength (w ++ ['"']))) := by
  intro body l
  have hrest : l.rest = [' '] ++ (StringForm.double.opener ++ body) := rfl
  have hgap : Gap (StringForm.double.opener ++ body) [' '] := .blank rfl .nil
  have hclose : Closes .double body "\\é\\\"a".toList := ⟨⟨" b".toList, rfl⟩, by decide⟩
  exact ⟨hclose, (next_plainString rfl rfl hrest hgap).1 ⟨_, hclose⟩⟩

end Script
