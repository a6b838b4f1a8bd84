import Script.Grammar.Parser

/-!
Runs of parsers that succeed, taken apart. A sequence succeeds when its parts do, one after the
other, and a loop succeeds by a finite run of its step; each lemma here says of one combinator what
a success of it consists of.
-/
namespace Script

namespace Cursor

/-- The last token of a cursor is an end token, so every other token has one after it. -/
def Ended (c : Cursor) : Prop := c.rest.getLast?.map Token.kind = some .endOfText

/-- From `c` the tokens `ts` were taken, which leads to `c'`. -/
structure Takes (c : Cursor) (ts : List Token) (c' : Cursor) : Prop where
  rest : c.rest = ts ++ c'.rest
  before : c'.before = ts.getLast?.or c.before

variable {c c' c'' : Cursor} {t : Token} {ts us r : List Token}

theorem rest_eq_cons (h : c.rest = t :: ts) : c.here = t ∧ c.ahead = ts := by
  simpa [rest] using h

theorem rest_ne_nil (c : Cursor) : c.rest ≠ [] := by
  simp [rest]

theorem next?_eq (h : c.rest = t :: ts) : c.next? = ts.head? := by
  rw [next?, (rest_eq_cons h).2]

theorem Takes.refl (c : Cursor) : c.Takes [] c := ⟨rfl, rfl⟩

theorem Takes.trans (h : c.Takes ts c') (h' : c'.Takes us c'') : c.Takes (ts ++ us) c'' := by
  refine ⟨by rw [h.rest, h'.rest, List.append_assoc], ?_⟩
  rw [h'.before, h.before, List.getLast?_append, Option.or_assoc]

theorem Takes.cons (h : c.Takes [t] c') (h' : c'.Takes us c'') : c.Takes (t :: us) c'' :=
  h.trans h'

/-- Where the tokens after those taken are known, so is the cursor. -/
theorem Takes.rest_eq (h : c.Takes ts c') (hr : c.rest = ts ++ r) : c'.rest = r :=
  List.append_cancel_left (h.rest.symm.trans hr)

theorem Takes.here_eq (h : c.Takes (t :: ts) c') : c.here = t :=
  (rest_eq_cons h.rest).1

theorem Takes.lastStop_eq (h : c.Takes ts c') (hts : ts ≠ []) :
    some c'.lastStop = ts.getLast?.map Token.stop := by
  rw [List.getLast?_eq_some_getLast hts, lastStop, h.before, List.getLast?_eq_some_getLast hts]
  rfl

theorem Ended.of_takes (hc : c.Ended) (h : c.Takes ts c') : c'.Ended := by
  have hlast : c.rest.getLast? = c'.rest.getLast? := by
    rw [h.rest, List.getLast?_append]
    cases hr : c'.rest.getLast? with
    | none => exact absurd (List.getLast?_eq_none_iff.1 hr) c'.rest_ne_nil
    | some t => rfl
  rw [Ended, ← hlast]
  exact hc

theorem takes_advance (h : c.ahead ≠ []) : c.Takes [c.here] c.advance := by
  cases ha : c.ahead with
  | nil => exact absurd ha h
  | cons t ts => exact ⟨by simp [rest, advance, ha], by simp [advance, ha]⟩

theorem Ended.ahead_ne_nil (hc : c.Ended) (h : c.here.kind ≠ .endOfText) : c.ahead ≠ [] := by
  intro hnil
  simp [Ended, rest, hnil, h] at hc

theorem Ended.takes (hc : c.Ended) (h : c.here.kind ≠ .endOfText) : c.Takes [c.here] c.advance :=
  takes_advance (hc.ahead_ne_nil h)

theorem takes_of_rest (h : c.rest = t :: r) (hr : r ≠ []) : c.Takes [t] c.advance := by
  obtain ⟨rfl, ha⟩ := rest_eq_cons h
  exact takes_advance (by rw [ha]; exact hr)

end Cursor

namespace Parser

variable {α β : Type} {s : Surroundings} {c c' : Cursor}

@[simp] theorem bind_ok {p : Parser α} {f : α → Parser β} {b : β} :
    (p >>= f) s c = .ok b c' ↔ ∃ a c1, p s c = .ok a c1 ∧ f a s c1 = .ok b c' := by
  rw [bind_apply]
  constructor
  · intro h
    cases hp : p s c with
    | ok a c1 => exact ⟨a, c1, rfl, by simpa [hp] using h⟩
    | error e c1 => simp [hp] at h
  · rintro ⟨a, c1, hp, hf⟩
    simp [hp, hf]

@[simp] theorem here_bind {f : Token → Parser β} : (here >>= f) s c = f c.here s c := rfl

@[simp] theorem position_bind {f : Nat → Parser β} :
    (position >>= f) s c = f c.here.start s c := rfl

@[simp] theorem surroundings_bind {f : Surroundings → Parser β} :
    (surroundings >>= f) s c = f s s c := rfl

@[simp] theorem advance_bind {f : Token → Parser β} :
    (advance >>= f) s c = f c.here s c.advance := rfl

@[simp] theorem spanFrom_bind {n : Nat} {f : Span → Parser β} :
    (spanFrom n >>= f) s c = f (c.spanFrom n) s c := rfl

@[simp] theorem isAt_bind {k : TokenKind} {f : Bool → Parser β} :
    (isAt k >>= f) s c = f (c.here.kind == k) s c := rfl

@[simp] theorem isAtAny_bind {ks : List TokenKind} {f : Bool → Parser β} :
    (isAtAny ks >>= f) s c = f (ks.contains c.here.kind) s c := rfl

@[simp] theorem isAtLineStart_bind {f : Bool → Parser β} :
    (isAtLineStart >>= f) s c = f c.here.newlineBefore s c := rfl

@[simp] theorem keyword?_bind {f : Option Keyword → Parser β} :
    (keyword? >>= f) s c = f c.here.keyword? s c := rfl

@[simp] theorem isAtKeyword_bind {w : Keyword} {f : Bool → Parser β} :
    (isAtKeyword w >>= f) s c = f (c.here.keyword? == some w) s c := rfl

@[simp] theorem nextHas_bind {g : Token → Bool} {f : Bool → Parser β} :
    (nextHas g >>= f) s c = f ((c.next?.map g).getD false) s c := rfl

theorem bind_of_ok {p : Parser α} {f : α → Parser β} {a : α} {c1 : Cursor} (h : p s c = .ok a c1) :
    (p >>= f) s c = f a s c1 := by
  rw [bind_apply, h]

@[simp] theorem token_bind {k : TokenKind} {f : Token → Parser β} :
    (token k >>= f) s c =
      if c.here.kind = k then f c.here s c.advance
      else .error ⟨.unexpectedToken (.token k) c.here.describe, c.here.span⟩ c := by
  by_cases h : c.here.kind = k <;>
    simp [bind_apply, token, isAt, advance, unexpected, h]

@[simp] theorem keyword_bind {w : Keyword} {f : Token → Parser β} :
    (keyword w >>= f) s c =
      if c.here.keyword? = some w then f c.here s c.advance
      else .error ⟨.unexpectedToken (.keyword w) c.here.describe, c.here.span⟩ c := by
  by_cases h : c.here.keyword? = some w <;>
    simp [bind_apply, keyword, isAtKeyword, advance, unexpected, h]

@[simp] theorem skip_bind {k : TokenKind} {f : Bool → Parser β} :
    (skip k >>= f) s c =
      if c.here.kind = k then f true s c.advance else f false s c := by
  by_cases h : c.here.kind = k <;>
    simp [bind_apply, skip, isAt, advance, pure_apply, h, -bind_pure_comp]

@[simp] theorem ite_eq_ok {P : Prop} [Decidable P] {x y : Outcome α} {a : α} :
    (if P then x else y) = .ok a c ↔ (P ∧ x = .ok a c) ∨ (¬ P ∧ y = .ok a c) := by
  split <;> simp_all

@[simp] theorem ite_apply {P : Prop} [Decidable P] {p q : Parser α} :
    (if P then p else q) s c = if P then p s c else q s c := by
  split <;> rfl

@[simp] theorem pure_ok {a b : α} : (pure a : Parser α) s c = .ok b c' ↔ a = b ∧ c = c' := by
  simp [pure_apply]

@[simp] theorem here_ok {t : Token} : here s c = .ok t c' ↔ c.here = t ∧ c = c' := by
  simp [here]

@[simp] theorem position_ok {n : Nat} : position s c = .ok n c' ↔ c.here.start = n ∧ c = c' := by
  simp [position]

@[simp] theorem surroundings_ok {x : Surroundings} :
    surroundings s c = .ok x c' ↔ s = x ∧ c = c' := by
  simp [surroundings]

@[simp] theorem advance_ok {t : Token} :
    advance s c = .ok t c' ↔ c.here = t ∧ c.advance = c' := by
  simp [advance]

@[simp] theorem spanFrom_ok {n : Nat} {x : Span} :
    spanFrom n s c = .ok x c' ↔ c.spanFrom n = x ∧ c = c' := by
  simp [spanFrom]

@[simp] theorem fail_ok {f : ParseFault} {x : Span} {a : α} : ¬ fail f x s c = .ok a c' := by
  simp [fail]

@[simp] theorem unexpected_ok {e : Expected} {a : α} : ¬ unexpected e s c = .ok a c' := by
  simp [unexpected]

@[simp] theorem within_ok {x : BraceContext} {b : Bool} {p : Parser α} {a : α} :
    within x b p s c = .ok a c' ↔ p ⟨x, b⟩ c = .ok a c' := Iff.rfl

@[simp] theorem inHead_ok {p : Parser α} {a : α} :
    inHead p s c = .ok a c' ↔ p { s with brace := .expectBlock } c = .ok a c' := Iff.rfl

@[simp] theorem isAt_ok {k : TokenKind} {b : Bool} :
    isAt k s c = .ok b c' ↔ (c.here.kind == k) = b ∧ c = c' := by
  simp [isAt]

@[simp] theorem isAtAny_ok {ks : List TokenKind} {b : Bool} :
    isAtAny ks s c = .ok b c' ↔ ks.contains c.here.kind = b ∧ c = c' := by
  simp [isAtAny]

@[simp] theorem isAtLineStart_ok {b : Bool} :
    isAtLineStart s c = .ok b c' ↔ c.here.newlineBefore = b ∧ c = c' := by
  simp [isAtLineStart]

@[simp] theorem keyword?_ok {k : Option Keyword} :
    keyword? s c = .ok k c' ↔ c.here.keyword? = k ∧ c = c' := by
  simp [keyword?]

@[simp] theorem isAtKeyword_ok {w : Keyword} {b : Bool} :
    isAtKeyword w s c = .ok b c' ↔ (c.here.keyword? == some w) = b ∧ c = c' := by
  simp [isAtKeyword]

@[simp] theorem nextHas_ok {f : Token → Bool} {b : Bool} :
    nextHas f s c = .ok b c' ↔ (c.next?.map f).getD false = b ∧ c = c' := by
  simp [nextHas]

@[simp] theorem token_ok {k : TokenKind} {t : Token} :
    token k s c = .ok t c' ↔ c.here.kind = k ∧ c.here = t ∧ c.advance = c' := by
  simp only [token, bind_ok, isAt_ok, ite_apply, ite_eq_ok, advance_ok, unexpected_ok]
  constructor
  · rintro ⟨b, c1, ⟨rfl, rfl⟩, ⟨hk, h⟩ | ⟨hk, h⟩⟩
    · exact ⟨by simpa using hk, h⟩
    · exact h.elim
  · rintro ⟨hk, h⟩
    exact ⟨true, c, ⟨by simpa using hk, rfl⟩, .inl ⟨rfl, h⟩⟩

@[simp] theorem keyword_ok {w : Keyword} {t : Token} :
    keyword w s c = .ok t c' ↔ c.here.keyword? = some w ∧ c.here = t ∧ c.advance = c' := by
  simp only [keyword, bind_ok, isAtKeyword_ok, ite_apply, ite_eq_ok, advance_ok, unexpected_ok]
  constructor
  · rintro ⟨b, c1, ⟨rfl, rfl⟩, ⟨hk, h⟩ | ⟨hk, h⟩⟩
    · exact ⟨by simpa using hk, h⟩
    · exact h.elim
  · rintro ⟨hk, h⟩
    exact ⟨true, c, ⟨by simpa using hk, rfl⟩, .inl ⟨rfl, h⟩⟩

@[simp] theorem skip_ok {k : TokenKind} {b : Bool} :
    skip k s c = .ok b c' ↔
      (c.here.kind = k ∧ b = true ∧ c.advance = c') ∨ (c.here.kind ≠ k ∧ b = false ∧ c = c') := by
  simp only [skip, bind_ok, isAt_ok, ite_apply, ite_eq_ok, advance_ok, pure_ok]
  constructor
  · rintro ⟨b, c1, ⟨rfl, rfl⟩, ⟨hk, t, c2, ⟨-, rfl⟩, rfl, rfl⟩ | ⟨hk, rfl, rfl⟩⟩
    · exact .inl ⟨by simpa using hk, rfl, rfl⟩
    · exact .inr ⟨by simpa using hk, rfl, rfl⟩
  · rintro (⟨hk, rfl, rfl⟩ | ⟨hk, rfl, rfl⟩)
    · exact ⟨true, c, ⟨by simpa using hk, rfl⟩, .inl ⟨rfl, c.here, c.advance, ⟨rfl, rfl⟩, rfl, rfl⟩⟩
    · exact ⟨false, c, ⟨by simpa using hk, rfl⟩, .inr ⟨by simp, rfl, rfl⟩⟩

/-- A run of a step that answers items until it answers that there are no more. -/
inductive Items (item : Parser (Option α)) (s : Surroundings) : Cursor → List α → Cursor → Prop
  | done {c c' : Cursor} (h : item s c = .ok none c') : Items item s c [] c'
  | more {c c1 c' : Cursor} {a : α} {as : List α} (h : item s c = .ok (some a) c1)
      (hs : Items item s c1 as c') : Items item s c (a :: as) c'

/-- A run of a step that extends a value until it answers that nothing extends it, with the number
of its steps. -/
inductive Steps (step : α → Parser (Option α)) (s : Surroundings) :
    Cursor → α → Nat → α → Cursor → Prop
  | done {c c' : Cursor} {a : α} (h : step a s c = .ok none c') : Steps step s c a 0 a c'
  | more {c c1 c' : Cursor} {a b r : α} {n : Nat} (h : step a s c = .ok (some b) c1)
      (hs : Steps step s c1 b n r c') : Steps step s c a (n + 1) r c'

/-- A run through a list up to the token that closes it. -/
inductive Listed (separators : List TokenKind) (close : TokenKind) (item : Parser α)
    (s : Surroundings) : Cursor → List α → Cursor → Prop
  | done {c : Cursor} (h : c.here.kind = close) : Listed separators close item s c [] c
  | separated {c c1 c' : Cursor} {a : α} {as : List α} (hc : c.here.kind ≠ close)
      (h : item s c = .ok a c1) (hsep : c1.here.kind ∈ separators)
      (hs : Listed separators close item s c1.advance as c') :
      Listed separators close item s c (a :: as) c'
  | unseparated {c c1 c' : Cursor} {a : α} {as : List α} (hc : c.here.kind ≠ close)
      (h : item s c = .ok a c1) (hsep : c1.here.kind ∉ separators)
      (hend : c1.here.kind = close ∨ c1.here.newlineBefore = true)
      (hs : Listed separators close item s c1 as c') :
      Listed separators close item s c (a :: as) c'

theorem items_of_collectWithin {item : Parser (Option α)} {as : List α} :
    ∀ {bound : List Token} {c : Cursor}, collectWithin item bound s c = .ok as c' →
      Items item s c as c' := by
  intro bound
  induction bound generalizing as with
  | nil => intro c h; simp [collectWithin] at h
  | cons _ bound ih =>
    intro c h
    obtain ⟨o, c1, ho, h⟩ := bind_ok.1 h
    cases o with
    | none =>
      obtain ⟨rfl, rfl⟩ := pure_ok.1 h
      exact .done ho
    | some a =>
      obtain ⟨as, c2, has, h⟩ := bind_ok.1 h
      obtain ⟨rfl, rfl⟩ := pure_ok.1 h
      exact .more ho (ih has)

theorem items_of_collect {item : Parser (Option α)} {as : List α}
    (h : collect item s c = .ok as c') : Items item s c as c' :=
  items_of_collectWithin h

theorem collectWithin_of_items {item : Parser (Option α)} {as : List α}
    (h : Items item s c as c') :
    ∀ bound : List Token, as.length < bound.length → collectWithin item bound s c = .ok as c' := by
  induction h with
  | @done c c' h =>
    intro bound hb
    cases bound with
    | nil => simp at hb
    | cons t bound => exact bind_ok.2 ⟨none, c', h, rfl⟩
  | @more c c1 c' a as h hs ih =>
    intro bound hb
    cases bound with
    | nil => simp at hb
    | cons t bound =>
      have hbound : as.length < bound.length := by simpa using hb
      exact bind_ok.2 ⟨some a, c1, h, bind_ok.2 ⟨as, c', ih bound hbound, rfl⟩⟩

/-- The tokens that are left bound a loop, which is not cut short as long as it reads fewer items.
-/
theorem collect_of_items {item : Parser (Option α)} {as : List α} (h : Items item s c as c')
    (hlen : as.length < c.rest.length) : collect item s c = .ok as c' :=
  collectWithin_of_items h c.rest hlen

theorem steps_of_iterateWithin {step : α → Parser (Option α)} {r : α} :
    ∀ {bound : List Token} {c : Cursor} {a : α}, iterateWithin step bound a s c = .ok r c' →
      ∃ n, Steps step s c a n r c' := by
  intro bound
  induction bound with
  | nil => intro c a h; simp [iterateWithin] at h
  | cons _ bound ih =>
    intro c a h
    obtain ⟨o, c1, ho, h⟩ := bind_ok.1 h
    cases o with
    | none =>
      obtain ⟨rfl, rfl⟩ := pure_ok.1 h
      exact ⟨0, .done ho⟩
    | some b =>
      obtain ⟨n, hn⟩ := ih h
      exact ⟨n + 1, .more ho hn⟩

theorem steps_of_iterate {step : α → Parser (Option α)} {a r : α}
    (h : iterate step a s c = .ok r c') : ∃ n, Steps step s c a n r c' :=
  steps_of_iterateWithin h

theorem iterateWithin_of_steps {step : α → Parser (Option α)} {a r : α} {n : Nat}
    (h : Steps step s c a n r c') :
    ∀ bound : List Token, n < bound.length → iterateWithin step bound a s c = .ok r c' := by
  induction h with
  | @done c c' a h =>
    intro bound hb
    cases bound with
    | nil => simp at hb
    | cons t bound => exact bind_ok.2 ⟨none, c', h, rfl⟩
  | @more c c1 c' a b r n h hs ih =>
    intro bound hb
    cases bound with
    | nil => simp at hb
    | cons t bound =>
      have hbound : n < bound.length := by simpa using hb
      exact bind_ok.2 ⟨some b, c1, h, ih bound hbound⟩

theorem iterate_of_steps {step : α → Parser (Option α)} {a r : α} {n : Nat}
    (h : Steps step s c a n r c') (hlen : n < c.rest.length) : iterate step a s c = .ok r c' :=
  iterateWithin_of_steps h c.rest hlen

theorem listed_of_separated {separators : List TokenKind} {close : TokenKind} {item : Parser α}
    {as : List α} (h : separated separators close item s c = .ok as c') :
    Listed separators close item s c as c' := by
  have hitems := items_of_collect h
  clear h
  induction hitems with
  | @done c c' h =>
    simp only [bind_ok, isAt_ok, ite_apply, ite_eq_ok, isAtAny_ok, isAtLineStart_ok, advance_ok,
      pure_ok, unexpected_ok] at h
    rcases h with ⟨_, _, ⟨rfl, rfl⟩, ⟨hclose, -, rfl⟩ | ⟨-, a, c2, -, h⟩⟩
    · exact .done (by simpa using hclose)
    · simp at h
  | @more c c1 c' a as h hs ih =>
    simp only [bind_ok, isAt_ok, ite_apply, ite_eq_ok, isAtAny_ok, isAtLineStart_ok, advance_ok,
      pure_ok, unexpected_ok, Option.some.injEq] at h
    rcases h with ⟨_, _, ⟨rfl, rfl⟩, ⟨-, h, -⟩ | ⟨hclose, a, c2, hitem, h⟩⟩
    · cases h
    have hclose : c.here.kind ≠ close := by simpa using hclose
    rcases h with ⟨_, _, ⟨rfl, rfl⟩, ⟨hsep, _, _, ⟨-, rfl⟩, rfl, rfl⟩ |
      ⟨hsep, _, _, ⟨rfl, rfl⟩, h⟩⟩
    · exact .separated hclose hitem (by simpa using hsep) ih
    · have hsep : c2.here.kind ∉ separators := by simpa using hsep
      rcases h with ⟨hend, rfl, rfl⟩ | ⟨-, _, _, ⟨rfl, rfl⟩, ⟨hline, rfl, rfl⟩ | ⟨-, h⟩⟩
      · exact .unseparated hclose hitem hsep (.inl (by simpa using hend)) ih
      · exact .unseparated hclose hitem hsep (.inr hline) ih
      · exact h.elim

theorem separated_of_listed {separators : List TokenKind} {close : TokenKind} {item : Parser α}
    {as : List α} (h : Listed separators close item s c as c') (hlen : as.length < c.rest.length) :
    separated separators close item s c = .ok as c' := by
  refine collect_of_items ?_ hlen
  clear hlen
  induction h with
  | @done c h =>
    refine .done (bind_ok.2 ⟨true, c, isAt_ok.2 ⟨by simpa using h, rfl⟩, rfl⟩)
  | @separated c c1 c' a as hc h hsep hs ih =>
    refine .more ?_ ih
    refine bind_ok.2 ⟨false, c, isAt_ok.2 ⟨by simpa using hc, rfl⟩, bind_ok.2 ⟨a, c1, h, ?_⟩⟩
    exact bind_ok.2 ⟨true, c1, isAtAny_ok.2 ⟨by simpa using hsep, rfl⟩, rfl⟩
  | @unseparated c c1 c' a as hc h hsep hend hs ih =>
    refine .more ?_ ih
    refine bind_ok.2 ⟨false, c, isAt_ok.2 ⟨by simpa using hc, rfl⟩, bind_ok.2 ⟨a, c1, h, ?_⟩⟩
    refine bind_ok.2 ⟨false, c1, isAtAny_ok.2 ⟨by simpa using hsep, rfl⟩, ?_⟩
    refine bind_ok.2 ⟨c1.here.kind == close, c1, isAt_ok.2 ⟨rfl, rfl⟩, ?_⟩
    by_cases hclose : c1.here.kind = close
    · simp [hclose]
    · have hline : c1.here.newlineBefore = true := hend.resolve_left hclose
      simp [hclose, hline]

end Parser

end Script
