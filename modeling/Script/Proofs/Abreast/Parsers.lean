import Script.Proofs.Abreast.Cursors

/-!
Parsers side by side. Two parsers keep abreast if they do the same on cursors that are near each
other: both succeed with like results and leave near cursors, or both fail for the same cause at
like spans. Where the first list ends before the second one, the parser on it may do what it likes
as long as it stays there or fails with an error that the end provoked; where the other parser fails
too, it is enough that the error stops with the list. Parsers that are put together of parts that
keep abreast keep abreast, which is all that is used of most of them.
-/
namespace Script

namespace Outcome

variable {σ : Seam} {α β : Type}

/-- The outcome of a parser that was lost at the end of its list. -/
inductive Gone (σ : Seam) (m : α → Nat) (R : α → β → Prop) : Outcome α → Prop
  | ok {a : α} {b : β} {c : Cursor} (h : R a b) (hc : σ.Away (m a) c) : Gone σ m R (.ok a c)
  | error {e : ParseError} {c : Cursor} (h : σ.Lost e) : Gone σ m R (.error e c)

/-- The outcomes of two parsers agree, or the first one was lost at the end of its list, or it failed
there and so did the other one. A result `a` leaves less than `m a` bytes. -/
inductive Kept (σ : Seam) (m : α → Nat) (R : α → β → Prop) : Outcome α → Outcome β → Prop
  | ok {a : α} {b : β} {c d : Cursor} (h : R a b) (hc : σ.Near (m a) c d) :
      Kept σ m R (.ok a c) (.ok b d)
  | error {e e' : ParseError} {c d : Cursor} (h : σ.Like e e') : Kept σ m R (.error e c) (.error e' d)
  | gone {o : Outcome α} {o' : Outcome β} (h : Gone σ m R o) : Kept σ m R o o'
  | late {e e' : ParseError} {c d : Cursor} (h : σ.Late e) : Kept σ m R (.error e c) (.error e' d)

end Outcome

namespace Parser

open Outcome Seam

variable {σ : Seam} {n : Nat} {s : Surroundings} {c d : Cursor} {α β γ δ : Type}

/-- The parsers do the same on cursors that are near each other. -/
structure Abreast (σ : Seam) (n : Nat) (m : α → Nat) (R : α → β → Prop) (p : Parser α)
    (q : Parser β) : Prop where
  near : ∀ {s c d}, σ.Near n c d → Kept σ m R (p s c) (q s d)
  away : ∀ {s c}, σ.Away n c → Gone σ m R (p s c)

/-- What a step of a loop leaves of `n + 1` bytes: less if it found something. -/
def afterStep (n : Nat) : Option α → Nat
  | some _ => n
  | none => n + 1

section Combinators

variable {m : α → Nat} {m' : γ → Nat} {R : α → β → Prop} {Q : γ → δ → Prop}
  {p p' : Parser α} {q q' : Parser β} {f : α → Parser γ} {g : β → Parser δ}

theorem gone_bind (h : Gone σ m R (p s c))
    (hf : ∀ a b c', R a b → σ.Away (m a) c' → Gone σ m' Q (f a s c')) :
    Gone σ m' Q ((p >>= f) s c) := by
  rw [bind_apply]
  generalize p s c = o at h
  cases h with
  | ok hab hc => exact hf _ _ _ hab hc
  | error he => exact .error he

theorem kept_bind (h : Kept σ m R (p s c) (q s d))
    (hf : ∀ a b c' d', R a b → σ.Near (m a) c' d' → Kept σ m' Q (f a s c') (g b s d'))
    (hg : Gone σ m R (p s c) → Gone σ m' Q ((p >>= f) s c)) :
    Kept σ m' Q ((p >>= f) s c) ((q >>= g) s d) := by
  by_cases hgone : Gone σ m R (p s c)
  · exact .gone (hg hgone)
  · rw [bind_apply, bind_apply]
    generalize p s c = o at h hgone
    generalize q s d = o' at h
    cases h with
    | ok hab hc => exact hf _ _ _ _ hab hc
    | error he => exact .error he
    | late he => exact .late he
    | gone h => exact absurd h hgone

/-- What follows a part that was read on near cursors. -/
theorem kept_then (h : Kept σ m R (p s c) (q s d))
    (hf : ∀ a b, R a b → Abreast σ (m a) m' Q (f a) (g b)) :
    Kept σ m' Q ((p >>= f) s c) ((q >>= g) s d) :=
  kept_bind h (fun _ _ _ _ hab hc => (hf _ _ hab).near hc) fun hg =>
    gone_bind hg fun _ _ _ hab hc => (hf _ _ hab).away hc

namespace Abreast

theorem bind (h : Abreast σ n m R p q) (hf : ∀ a b, R a b → Abreast σ (m a) m' Q (f a) (g b)) :
    Abreast σ n m' Q (p >>= f) (q >>= g) where
  near hc := kept_then (h.near hc) hf
  away hc := gone_bind (h.away hc) fun _ _ _ hab hc => (hf _ _ hab).away hc

theorem pure {a : α} {b : β} (h : R a b) (hm : n ≤ m a) :
    Abreast σ n m R (Pure.pure a) (Pure.pure b) where
  near hc := .ok h (hc.mono hm)
  away hc := .ok h (hc.mono hm)

theorem ite {b b' : Bool} (hb : b = b') (h : b = true → Abreast σ n m R p q)
    (h' : b = false → Abreast σ n m R p' q') :
    Abreast σ n m R (if b = true then p else p') (if b' = true then q else q') := by
  subst hb
  cases b with
  | true => exact h rfl
  | false => exact h' rfl

theorem within (h : Abreast σ n m R p q) (brace : BraceContext) (breakEnds : Bool) :
    Abreast σ n m R (Parser.within brace breakEnds p) (Parser.within brace breakEnds q) where
  near hc := h.near hc
  away hc := h.away hc

theorem inHead (h : Abreast σ n m R p q) :
    Abreast σ n m R (Parser.inHead p) (Parser.inHead q) where
  near hc := h.near hc
  away hc := h.away hc

theorem mono {n' : Nat} {k : α → Nat} (h : Abreast σ n m R p q) (hn : n' ≤ n)
    (hm : ∀ a, m a ≤ k a) : Abreast σ n' k R p q where
  near {s c d} hc := by
    have hk := h.near (s := s) (hc.mono hn)
    generalize p s c = o at hk
    generalize q s d = o' at hk
    cases hk with
    | ok hab hr => exact .ok hab (hr.mono (hm _))
    | error he => exact .error he
    | late he => exact .late he
    | gone hg =>
      cases hg with
      | ok hab hr => exact .gone (.ok hab (hr.mono (hm _)))
      | error he => exact .gone (.error he)
  away {s c} hc := by
    have hk := h.away (s := s) (hc.mono hn)
    generalize p s c = o at hk
    cases hk with
    | ok hab hr => exact .ok hab (hr.mono (hm _))
    | error he => exact .error he

/-- What takes at least one byte of whatever is there leaves no more than there was. -/
theorem lax (h : ∀ k < n, Abreast σ (k + 1) (fun _ => k) R p q) :
    Abreast σ n (fun _ => n) R p q := by
  cases n with
  | zero => exact ⟨fun hc => absurd hc.light (Nat.not_lt_zero _),
      fun hc => absurd hc.light (Nat.not_lt_zero _)⟩
  | succ k => exact (h k (Nat.lt_succ_self k)).mono (Nat.le_refl _) fun _ => Nat.le_succ k

end Abreast

end Combinators

section Looks

/-- What only looks at the cursor leaves it where it is. -/
theorem look_abreast {R : α → β → Prop} {f : Cursor → α} {g : Cursor → β}
    (h : ∀ {c d}, σ.Near n c d → R (f c) (g d)) (ha : ∀ c, ∃ b, R (f c) b) :
    Abreast σ n (fun _ => n) R (fun _ c => .ok (f c) c) (fun _ d => .ok (g d) d) where
  near hc := .ok (h hc) hc
  away {_ c} hc := .ok (ha c).choose_spec hc

theorem here_abreast : Abreast σ n (fun _ => n) σ.Like here here :=
  look_abreast (fun hc => hc.like) fun c => σ.places.exists_like_token c.here

theorem position_abreast :
    Abreast σ n (fun _ => n) (fun i j => σ.places.left i = σ.places.right j) position position :=
  look_abreast (fun hc => hc.like.start) fun c => σ.places.total c.here.start

theorem spanFrom_abreast {i j : Nat} (h : σ.places.left i = σ.places.right j) :
    Abreast σ n (fun _ => n) σ.Like (spanFrom i) (spanFrom j) :=
  look_abreast (fun hc => Places.like_span.2 ⟨h, σ.places.max hc.lastStop h⟩)
    fun c => σ.places.exists_like_span (c.spanFrom i)

theorem isAt_abreast (k : TokenKind) : Abreast σ n (fun _ => n) Eq (isAt k) (isAt k) :=
  look_abreast (fun hc => by rw [hc.like.kind]) fun _ => ⟨_, rfl⟩

theorem isAtAny_abreast (ks : List TokenKind) :
    Abreast σ n (fun _ => n) Eq (isAtAny ks) (isAtAny ks) :=
  look_abreast (fun hc => by rw [hc.like.kind]) fun _ => ⟨_, rfl⟩

theorem isAtLineStart_abreast : Abreast σ n (fun _ => n) Eq isAtLineStart isAtLineStart :=
  look_abreast (fun hc => hc.like.newline) fun _ => ⟨_, rfl⟩

theorem keyword?_abreast : Abreast σ n (fun _ => n) Eq keyword? keyword? :=
  look_abreast (fun hc => hc.like.keyword) fun _ => ⟨_, rfl⟩

theorem isAtKeyword_abreast (w : Keyword) :
    Abreast σ n (fun _ => n) Eq (isAtKeyword w) (isAtKeyword w) :=
  look_abreast (fun hc => by rw [hc.like.keyword]) fun _ => ⟨_, rfl⟩

theorem surroundings_abreast : Abreast σ n (fun _ => n) Eq surroundings surroundings where
  near hc := .ok rfl hc
  away hc := .ok rfl hc

end Looks

section Takes

variable {R : α → β → Prop} {Q : γ → δ → Prop} {m : γ → Nat}

theorem advance_abreast : Abreast σ n (fun _ => n) σ.Like advance advance where
  near {_ c d} hc := by
    by_cases hk : c.here.kind = .endOfText
    · obtain ⟨hc', hd'⟩ := hc.ahead_of_end hk
      refine .ok hc.like ?_
      rw [Cursor.advance, hc', Cursor.advance, hd']
      exact hc
    · cases n with
      | zero => exact absurd hc.light (Nat.not_lt_zero _)
      | succ k =>
        rcases hc.advance hk with h | ⟨-, h⟩
        · exact .ok hc.like (h.mono (Nat.le_succ k))
        · exact .gone (.ok hc.like (h.mono (Nat.le_succ k)))
  away {_ c} hc := .ok (σ.places.exists_like_token c.here).choose_spec hc.advance.2

/-- Taking a token that is no end token takes at least one byte. -/
theorem kept_take (hc : σ.Near (n + 1) c d) (hk : c.here.kind ≠ .endOfText) :
    Kept σ (fun _ => n) σ.Like (advance s c) (advance s d) := by
  rcases hc.advance hk with hr | ⟨-, hr⟩
  · exact .ok hc.like hr
  · exact .gone (.ok hc.like hr)

theorem lost_of_away {x : Expected} (hc : σ.Away n c) :
    σ.Lost ⟨.unexpectedToken x c.here.describe, c.here.span⟩ := by
  refine ⟨hc.cut, ?_⟩
  rcases hc.rest with hrest | ⟨hdot, hrest, hmore⟩
  · exact .inl (congrArg Token.span (Cursor.rest_eq_cons hrest).1)
  · have htokens : ∃ ts, σ.tokens = ts ++ [c.here] := hc.reaches.tokens_eq hrest
    obtain ⟨ts, hts⟩ := htokens
    exact .inr (.point hts (continuesWith_kind hdot) hmore)

theorem unexpected_abreast {k : α → Nat} {R : α → β → Prop} (x : Expected) :
    Abreast σ n k R (unexpected x) (unexpected x) where
  near hc := .error (Places.like_error.2 ⟨by rw [hc.like.describe], hc.like.span⟩)
  away hc := .error (lost_of_away hc)

/-- Taking a token that passes a test, which no end token does, takes at least one byte. -/
theorem take_abreast {p : Parser Token} (test : Token → Prop) [DecidablePred test] (x : Expected)
    (hp : ∀ s c, p s c = if test c.here then .ok c.here c.advance else unexpected x s c)
    (hlike : ∀ {t u}, σ.Like t u → (test t ↔ test u))
    (hend : ∀ {t}, test t → t.kind ≠ .endOfText) :
    Abreast σ (n + 1) (fun _ => n) σ.Like p p where
  near {s c d} hc := by
    rw [hp, hp]
    by_cases h : test c.here
    · rw [if_pos h, if_pos ((hlike hc.like).1 h)]
      rcases hc.advance (hend h) with hr | ⟨-, hr⟩
      · exact .ok hc.like hr
      · exact .gone (.ok hc.like hr)
    · rw [if_neg h, if_neg (mt (hlike hc.like).2 h)]
      exact (unexpected_abreast x).near hc
  away {s c} hc := by
    rw [hp]
    by_cases h : test c.here
    · rw [if_pos h]
      exact .ok (σ.places.exists_like_token c.here).choose_spec ((hc.atLast (hend h)).advance).2
    · rw [if_neg h]
      exact (unexpected_abreast x).away hc

theorem token_abreast {k : TokenKind} (hk : k ≠ .endOfText) :
    Abreast σ (n + 1) (fun _ => n) σ.Like (token k) (token k) := by
  refine take_abreast (fun t => t.kind = k) (.token k) ?_ ?_ ?_
  · intro s c
    simp [token, advance]
  · intro t u h
    rw [h.kind]
  · rintro t rfl
    exact hk

theorem keyword_abreast (w : Keyword) :
    Abreast σ (n + 1) (fun _ => n) σ.Like (keyword w) (keyword w) := by
  refine take_abreast (fun t => t.keyword? = some w) (.keyword w) ?_ ?_ ?_
  · intro s c
    simp [keyword, advance]
  · intro t u h
    rw [h.keyword]
  · intro t h
    rw [Token.kind_of_keyword? h]
    decide

theorem skip_abreast (k : TokenKind) : Abreast σ n (fun _ => n) Eq (skip k) (skip k) := by
  refine (isAt_abreast k).bind fun b b' hb => .ite hb (fun _ => ?_) fun _ => ?_
  · exact advance_abreast.bind fun _ _ _ => .pure rfl (Nat.le_refl n)
  · exact .pure rfl (Nat.le_refl n)

end Takes

section Loops

variable [Placed α] {item item' : Parser (Option α)} {step step' : α → Parser (Option α)}

/-- Items that are found one after the other, each of which takes at least one byte. -/
def StepsAbreast (σ : Seam) (n : Nat) (item item' : Parser (Option α)) : Prop :=
  ∀ k < n, Abreast σ (k + 1) (afterStep k) σ.Like item item'

theorem collectWithin_gone
    (h : ∀ k < n, ∀ {c}, σ.Away (k + 1) c → Gone σ (afterStep k) σ.Like (item s c)) :
    ∀ {bound : List Token} {c : Cursor}, σ.Away n c → c.rest.length ≤ bound.length →
      Gone σ (fun _ => n) σ.Like (collectWithin item bound s c) := by
  intro bound
  induction bound with
  | nil =>
    intro c _ hb
    exact absurd (List.eq_nil_of_length_eq_zero (Nat.le_zero.1 hb)) c.rest_ne_nil
  | cons _ bound ih =>
    intro c hc hb
    refine gone_bind (h _ hc.light hc.tight) fun o o' c' ho hc' => ?_
    obtain ⟨rfl, rfl⟩ | ⟨a, b, rfl, rfl, hab⟩ := Places.like_option ho
    · exact .ok Places.like_nil (hc'.mono hc.light)
    · have hlt := hc.reaches.length_lt hc'.reaches hc'.light
      rw [List.length_cons] at hb
      refine gone_bind (ih (hc'.mono (Nat.le_of_lt hc.light)) (by omega)) fun as bs c1 has h1 => ?_
      exact .ok (Places.like_cons.2 ⟨hab, has⟩) h1

/-- A loop on near cursors. At some cursors `stuck` the first loop may end by itself. -/
theorem collectWithin_near {stuck : Cursor → Prop}
    (hnear : ∀ k < n, ∀ {c d}, σ.Near (k + 1) c d →
      Kept σ (afterStep k) σ.Like (item s c) (item' s d) ∨ stuck c ∧ item s c = .ok none c)
    (haway : ∀ k < n, ∀ {c}, σ.Away (k + 1) c → Gone σ (afterStep k) σ.Like (item s c)) :
    ∀ {bound bound' : List Token} {c d : Cursor}, σ.Near n c d → c.rest.length ≤ bound.length →
      d.rest.length ≤ bound'.length →
      Kept σ (fun _ => n) σ.Like (collectWithin item bound s c) (collectWithin item' bound' s d) ∨
        ∃ as c', stuck c' ∧ collectWithin item bound s c = .ok as c' := by
  intro bound
  induction bound with
  | nil =>
    intro bound' c d _ hb _
    exact absurd (List.eq_nil_of_length_eq_zero (Nat.le_zero.1 hb)) c.rest_ne_nil
  | cons _ bound ih =>
    intro bound' c d hc hb hb'
    cases bound' with
    | nil => exact absurd (List.eq_nil_of_length_eq_zero (Nat.le_zero.1 hb')) d.rest_ne_nil
    | cons _ bound' =>
      rw [List.length_cons] at hb hb'
      rw [collectWithin, collectWithin, bind_apply, bind_apply]
      rcases hnear _ hc.light hc.tight with hitem | ⟨hstuck, hnone⟩
      · generalize item s c = o at hitem
        generalize item' s d = o' at hitem
        cases hitem with
        | error he => exact .inl (.error he)
        | late he => exact .inl (.late he)
        | ok hoo hc' =>
          obtain ⟨rfl, rfl⟩ | ⟨a, b, rfl, rfl, hab⟩ := Places.like_option hoo
          · exact .inl (.ok Places.like_nil (hc'.mono hc.light))
          · obtain ⟨hlt, hlt'⟩ := hc.rest_lt hc'
            rcases @ih bound' _ _ (hc'.mono (Nat.le_of_lt hc.light)) (by omega) (by omega) with
              hkept | ⟨as, c1, hstuck, has⟩
            · exact .inl (kept_then hkept fun as bs has =>
                .pure (Places.like_cons.2 ⟨hab, has⟩) (Nat.le_refl n))
            · exact .inr ⟨a :: as, c1, hstuck, bind_of_ok has⟩
        | gone hg =>
          refine .inl (.gone ?_)
          cases hg with
          | error he => exact .error he
          | @ok _ _ c' hoo hc' =>
            obtain ⟨rfl, rfl⟩ | ⟨a, b, rfl, rfl, hab⟩ := Places.like_option hoo
            · exact .ok Places.like_nil (hc'.mono hc.light)
            · have hlt := hc.reaches.length_lt hc'.reaches hc'.light
              have hlen : c'.rest.length ≤ bound.length := by omega
              have hrest := collectWithin_gone haway (hc'.mono (Nat.le_of_lt hc.light)) hlen
              refine gone_bind hrest fun as bs c1 has h1 => ?_
              exact .ok (Places.like_cons.2 ⟨hab, has⟩) h1
      · rw [hnone]
        exact .inr ⟨[], c, hstuck, rfl⟩

theorem collect_near {stuck : Cursor → Prop}
    (hnear : ∀ k < n, ∀ {c d}, σ.Near (k + 1) c d →
      Kept σ (afterStep k) σ.Like (item s c) (item' s d) ∨ stuck c ∧ item s c = .ok none c)
    (haway : ∀ k < n, ∀ {c}, σ.Away (k + 1) c → Gone σ (afterStep k) σ.Like (item s c))
    (hc : σ.Near n c d) :
    Kept σ (fun _ => n) σ.Like (collect item s c) (collect item' s d) ∨
      ∃ as c', stuck c' ∧ collect item s c = .ok as c' :=
  collectWithin_near hnear haway hc (Nat.le_refl _) (Nat.le_refl _)

theorem collect_abreast (h : StepsAbreast σ n item item') :
    Abreast σ n (fun _ => n) σ.Like (collect item) (collect item') where
  near {s c d} hc := by
    rcases collect_near (s := s) (fun k hk _ _ hc => .inl ((h k hk).near hc))
      (fun k hk _ hc => (h k hk).away hc) hc with hkept | ⟨as, c', hfalse, -⟩
    · exact hkept
    · exact False.elim hfalse
  away hc := collectWithin_gone (fun k hk _ hc => (h k hk).away hc) hc (Nat.le_refl _)

theorem iterateWithin_gone (h : ∀ a b, σ.Like a b → StepsAbreast σ n (step a) (step' b)) :
    ∀ {bound : List Token} {c : Cursor} {a b : α}, σ.Like a b → σ.Away n c →
      c.rest.length ≤ bound.length →
      Gone σ (fun _ => n) σ.Like (iterateWithin step bound a s c) := by
  intro bound
  induction bound with
  | nil =>
    intro c a b _ _ hb
    exact absurd (List.eq_nil_of_length_eq_zero (Nat.le_zero.1 hb)) c.rest_ne_nil
  | cons _ bound ih =>
    intro c a b hab hc hb
    refine gone_bind ((h a b hab _ hc.light).away hc.tight) fun o o' c' ho hc' => ?_
    obtain ⟨rfl, rfl⟩ | ⟨a', b', rfl, rfl, hab'⟩ := Places.like_option ho
    · exact .ok hab (hc'.mono hc.light)
    · have hlt := hc.reaches.length_lt hc'.reaches hc'.light
      rw [List.length_cons] at hb
      exact ih hab' (hc'.mono (Nat.le_of_lt hc.light)) (by omega)

theorem iterateWithin_kept (h : ∀ a b, σ.Like a b → StepsAbreast σ n (step a) (step' b)) :
    ∀ {bound bound' : List Token} {c d : Cursor} {a b : α}, σ.Like a b → σ.Near n c d →
      c.rest.length ≤ bound.length → d.rest.length ≤ bound'.length →
      Kept σ (fun _ => n) σ.Like (iterateWithin step bound a s c)
        (iterateWithin step' bound' b s d) := by
  intro bound
  induction bound with
  | nil =>
    intro bound' c d a b _ _ hb _
    exact absurd (List.eq_nil_of_length_eq_zero (Nat.le_zero.1 hb)) c.rest_ne_nil
  | cons _ bound ih =>
    intro bound' c d a b hab hc hb hb'
    cases bound' with
    | nil => exact absurd (List.eq_nil_of_length_eq_zero (Nat.le_zero.1 hb')) d.rest_ne_nil
    | cons _ bound' =>
      rw [List.length_cons] at hb hb'
      refine kept_bind ((h a b hab _ hc.light).near hc.tight) ?_ ?_
      · intro o o' c' d' ho hc'
        obtain ⟨rfl, rfl⟩ | ⟨a', b', rfl, rfl, hab'⟩ := Places.like_option ho
        · exact .ok hab (hc'.mono hc.light)
        · obtain ⟨hlt, hlt'⟩ := hc.rest_lt hc'
          exact ih hab' (hc'.mono (Nat.le_of_lt hc.light)) (by omega) (by omega)
      · intro hg
        refine gone_bind hg fun o o' c' ho hc' => ?_
        obtain ⟨rfl, rfl⟩ | ⟨a', b', rfl, rfl, hab'⟩ := Places.like_option ho
        · exact .ok hab (hc'.mono hc.light)
        · have hlt := hc.reaches.length_lt hc'.reaches hc'.light
          exact iterateWithin_gone h hab' (hc'.mono (Nat.le_of_lt hc.light)) (by omega)

theorem iterate_abreast (h : ∀ a b, σ.Like a b → StepsAbreast σ n (step a) (step' b)) {a b : α}
    (hab : σ.Like a b) : Abreast σ n (fun _ => n) σ.Like (iterate step a) (iterate step' b) where
  near hc := iterateWithin_kept h hab hc (Nat.le_refl _) (Nat.le_refl _)
  away hc := iterateWithin_gone h hab hc (Nat.le_refl _)

/-- Parsers each of which takes at least one byte of up to `n`. -/
def Strict (σ : Seam) (n : Nat) (p q : Parser α) : Prop :=
  ∀ k < n, Abreast σ (k + 1) (fun _ => k) σ.Like p q

variable {p q : Parser α}

theorem Strict.lax (h : Strict σ n p q) {k : Nat} (hk : k ≤ n) :
    Abreast σ k (fun _ => k) σ.Like p q :=
  Abreast.lax fun j hj => h j (Nat.lt_of_lt_of_le hj hk)

theorem Strict.mono (h : Strict σ n p q) {k : Nat} (hk : k ≤ n) : Strict σ k p q :=
  fun j hj => h j (Nat.lt_of_lt_of_le hj hk)

theorem separated_abreast (h : Strict σ n p q) (separators : List TokenKind) (close : TokenKind) :
    Abreast σ n (fun _ => n) σ.Like (separated separators close p)
      (separated separators close q) := by
  refine collect_abreast fun k hk => ?_
  refine (isAt_abreast close).bind fun b b' hb => .ite hb (fun _ => ?_) fun _ => ?_
  · exact .pure Places.like_none (Nat.le_refl _)
  refine (h k hk).bind fun a a' ha => ?_
  have hdone : Abreast σ k (afterStep k) σ.Like (Pure.pure (some a)) (Pure.pure (some a')) :=
    .pure (Places.like_some.2 ha) (Nat.le_refl k)
  refine (isAtAny_abreast separators).bind fun b b' hb => .ite hb (fun _ => ?_) fun _ => ?_
  · exact advance_abreast.bind fun _ _ _ => hdone
  refine (isAt_abreast close).bind fun b b' hb => .ite hb (fun _ => hdone) fun _ => ?_
  refine isAtLineStart_abreast.bind fun b b' hb => .ite hb (fun _ => hdone) fun _ => ?_
  exact unexpected_abreast _

theorem bracketed_abreast {opener close : TokenKind} (ho : opener ≠ .endOfText)
    (hc : close ≠ .endOfText) (h : Strict σ n p q) (separators : List TokenKind) :
    Abreast σ (n + 1) (fun _ => n) σ.Like (bracketed opener separators close p)
      (bracketed opener separators close q) := by
  refine (token_abreast ho).bind fun _ _ _ => ?_
  refine ((separated_abreast h separators close).within _ _).bind fun as bs has => ?_
  exact (Abreast.lax fun k _ => token_abreast hc).bind fun _ _ _ => .pure has (Nat.le_refl n)

end Loops

section Whole

variable {m : α → Nat} {R : α → β → Prop}

/-- Where both lists end alike, no parser is lost. -/
theorem kept_cases (hm : σ.more = []) {o : Outcome α} {o' : Outcome β} (h : Kept σ m R o o') :
    (∃ a b c d, o = .ok a c ∧ o' = .ok b d ∧ R a b ∧ σ.Near (m a) c d) ∨
      ∃ e e' c d, o = .error e c ∧ o' = .error e' d ∧ σ.Like e e' := by
  cases h with
  | ok hab hc => exact .inl ⟨_, _, _, _, rfl, rfl, hab, hc⟩
  | error he => exact .inr ⟨_, _, _, _, rfl, rfl, he⟩
  | late he => exact absurd hm he.cut
  | gone hg =>
    cases hg with
    | ok _ ha => exact absurd hm ha.cut
    | error hl => exact absurd hm hl.cut

end Whole

end Parser

/-- The parsers for what is nested inside a construct keep abreast, whatever is read, as long as
less than `n` bytes are left. -/
structure Nested.Abreast (nested : Nested) (P : Places) (n : Nat) (nested' : Nested) : Prop where
  expr : ∀ {σ : Seam}, σ.places = P → ∀ min, Parser.Strict σ n (nested.expr min) (nested'.expr min)
  value : ∀ {σ : Seam}, σ.places = P → ∀ min,
    Parser.Strict σ n (nested.value min) (nested'.value min)
  statement : ∀ {σ : Seam}, σ.places = P → Parser.Strict σ n nested.statement nested'.statement
  /-- An expression that begins with the last word of a list which the other list goes on after. -/
  word : ∀ {σ : Seam}, σ.places = P → ∀ min, ∀ k < n, ∀ {s : Surroundings} {c : Cursor},
    σ.AtLast (k + 1) c → c.here.kind = .ident →
      (c.here.Reserved → σ.Lost ⟨.unexpectedToken .expression c.here.describe, c.here.span⟩) →
      Outcome.Gone σ (fun _ => k) σ.Like (nested.expr min s c)
  /-- An expression that is a pair in the other list alone was lost in the key of this pair. -/
  key : ∀ {σ : Seam}, σ.places = P → ∀ min, ∀ k < n, ∀ {s : Surroundings} {c d c' d' : Cursor}
    {e e' : Expr}, σ.Near (k + 1) c d → nested.expr min s c = .ok e c' → Parser.isPair e = false →
      nested'.expr min s d = .ok e' d' → Parser.isPair e' = true → Seam.ToColon σ.more
  /-- Where the list has ended, or at a last point of it, no expression is found. -/
  silent : ∀ {σ : Seam}, σ.places = P → ∀ min, ∀ k < n, ∀ {s : Surroundings} {c c' : Cursor}
    {e : Expr}, σ.Away (k + 1) c → nested.expr min s c ≠ .ok e c'
  spanning : ∃ rules : Rules, nested.Sound rules ∧ rules.Spanning

theorem Nested.Abreast.mono {nested nested' : Nested} {P : Places} {n k : Nat}
    (h : nested.Abreast P n nested') (hk : k ≤ n) : nested.Abreast P k nested' :=
  ⟨fun hσ min => (h.expr hσ min).mono hk, fun hσ min => (h.value hσ min).mono hk,
    fun hσ => (h.statement hσ).mono hk,
    fun hσ min j hj => h.word hσ min j (Nat.lt_of_lt_of_le hj hk),
    fun hσ min j hj => h.key hσ min j (Nat.lt_of_lt_of_le hj hk),
    fun hσ min j hj => h.silent hσ min j (Nat.lt_of_lt_of_le hj hk), h.spanning⟩

end Script
