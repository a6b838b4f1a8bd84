import Script.Proofs.Openings
import Script.Proofs.Successes

/-!
What is written as the rules say, and ends before the tokens after it, is read by the parsers of
names, types and lists. A parser is complete up to a weight if it reads whatever weighs less.
-/
namespace Script

/-- Tokens that have texts, which together take fewer than `k` bytes. -/
structure Light (k : Nat) (ts : List Token) : Prop where
  solid : ∀ t ∈ ts, 0 < t.text.utf8ByteSize
  weight : Token.weight ts < k

namespace Light

variable {k : Nat} {t : Token} {ts us : List Token}

theorem tail (h : Light (k + 1) (t :: ts)) : Light k ts := by
  refine ⟨fun u hu => h.solid u (by simp [hu]), ?_⟩
  have hw := h.weight
  have ht := h.solid t (by simp)
  rw [Token.weight] at hw
  omega

theorem left (h : Light k (ts ++ us)) : Light k ts := by
  refine ⟨fun t ht => h.solid t (by simp [ht]), ?_⟩
  have hw := h.weight
  rw [Token.weight_append] at hw
  omega

theorem right (h : Light k (ts ++ us)) : Light k us := by
  refine ⟨fun t ht => h.solid t (by simp [ht]), ?_⟩
  have hw := h.weight
  rw [Token.weight_append] at hw
  omega

theorem drop (h : Light k (t :: ts)) : Light k ts := @right _ [t] _ h

theorem dropLast (h : Light k ts) : Light k ts.dropLast := by
  rcases List.eq_nil_or_concat ts with rfl | ⟨us, t, rfl⟩
  · exact h
  · rw [List.concat_eq_append] at h ⊢
    rw [List.dropLast_concat]
    exact h.left

theorem succ (h : Light k ts) : Light (k + 1) ts :=
  ⟨h.solid, Nat.lt_succ_of_lt h.weight⟩

end Light

namespace Cursor

variable {c : Cursor} {t : Token} {r : List Token}

theorem next (h : c.rest = t :: r) (hr : r ≠ []) :
    c.here = t ∧ c.Takes [t] c.advance ∧ c.advance.rest = r := by
  obtain ⟨rfl, ha⟩ := rest_eq_cons h
  have hk := takes_advance (c := c) (by rw [ha]; exact hr)
  exact ⟨rfl, hk, hk.rest_eq (by rw [h]; rfl)⟩

end Cursor

namespace Parser

/-- Whatever is written with a result, weighs less than `k` and ends before the tokens after it is
read with this result. -/
def Complete {α : Type} (k : Nat) (p : Parser α) (written : Surroundings → α → List Token → Prop)
    (ends : Surroundings → List Token → α → Prop) : Prop :=
  ∀ ⦃s a ts c r⦄, written s a ts → Light k ts → c.rest = ts ++ r → r ≠ [] → ends s r a →
    ∃ c', p s c = .ok a c' ∧ c.Takes ts c' ∧ c'.rest = r

variable {k : Nat} {s : Surroundings} {c c' : Cursor} {ts r : List Token}

theorem segments_complete {is : List Ident} (w : Ident.MoreWritten is ts) :
    ∀ {c : Cursor}, c.rest = ts ++ r → r ≠ [] → Dotless r →
      ∃ c', Items segment s c is c' ∧ c.Takes ts c' ∧ c'.rest = r := by
  induction w with
  | nil =>
    intro c hr _ hd
    refine ⟨c, .done (segment_ok.2 (.inr ⟨?_, rfl, rfl⟩)), .refl c, hr⟩
    rintro ⟨hcont, -⟩
    rw [List.nil_append] at hr
    exact hd (hr ▸ ⟨c.here, rfl, hcont⟩)
  | cons hd ht hi _ ih =>
    intro c hr hne hdot
    obtain ⟨rfl, k1, h1⟩ := Cursor.next hr (by simp)
    obtain ⟨rfl, k2, h2⟩ := Cursor.next h1 (by simp [hne])
    obtain ⟨c', hs, k3, h3⟩ := ih h2 hne hdot
    refine ⟨c', .more ?_ hs, k1.cons (k2.cons k3), h3⟩
    refine segment_ok.2 (.inl ⟨hd, ?_, hi.kind, by rw [hi.eq], rfl⟩)
    rw [Cursor.next?_eq hr]
    simpa using ht

theorem segments_length {is : List Ident} (w : Ident.MoreWritten is ts) :
    is.length ≤ ts.length := by
  induction w with
  | nil => simp
  | cons _ _ _ _ ih =>
    simp only [List.length_cons]
    omega

theorem rest_length (hr : c.rest = ts ++ r) (hne : r ≠ []) : ts.length < c.rest.length := by
  have := List.length_pos_iff.2 hne
  rw [hr, List.length_append]
  omega

theorem name_complete : Complete k name (fun _ => Name.Written) fun _ r _ => Dotless r := by
  intro s n ts c r w _ hr hne hd
  cases w with
  | absolute hi his =>
    obtain ⟨rfl, k1, h1⟩ := Cursor.next hr (by simp [hne])
    obtain ⟨c', hs, k2, h2⟩ := segments_complete his h1 hne hd
    have hlen := Nat.lt_of_le_of_lt (segments_length his) (rest_length h1 hne)
    have hk := k1.cons k2
    refine ⟨c', name_ok.2 (.inr ⟨by simp [hi.kind], hi.kind, _, c', collect_of_items hs hlen, ?_,
      rfl⟩), hk, h2⟩
    rw [hk.spanFrom (by simp), hi.eq, Token.spanOf]
  | relative hdot hi his =>
    obtain ⟨rfl, k1, h1⟩ := Cursor.next hr (by simp)
    obtain ⟨rfl, k2, h2⟩ := Cursor.next h1 (by simp [hne])
    obtain ⟨c', hs, k3, h3⟩ := segments_complete his h2 hne hd
    have hlen := Nat.lt_of_le_of_lt (segments_length his) (rest_length h2 hne)
    have hk := k1.cons (k2.cons k3)
    refine ⟨c', name_ok.2 (.inl ⟨hdot, hi.kind, _, c', collect_of_items hs hlen, ?_, rfl⟩), hk, h3⟩
    rw [hk.spanFrom (by simp), hi.eq, Token.spanOf]

theorem typeRef_complete : Complete k typeRef (fun _ => TypeRef.Written)
    fun _ r t => t.EndsBefore r := by
  intro s type ts c r w hl hr hne he
  cases w with
  | primitive hk ht =>
    obtain ⟨rfl, k1, h1⟩ := Cursor.next hr hne
    refine ⟨_, typeRef_ok.2 (.inl ⟨_, ?_, rfl, rfl⟩), k1, h1⟩
    simp [builtin?, hk, ht]
  | @named n t ts hn ht =>
    obtain ⟨c', hname, k1, h1⟩ := name_complete (s := s) hn hl hr hne he
    refine ⟨c', typeRef_ok.2 (.inr ⟨?_, ?_, n, c', hname, rfl, rfl⟩), k1, h1⟩
    · rw [builtin?, k1.here_eq]
      split
      · rename_i hk
        exact ht hk
      · rfl
    · rw [k1.here_eq]
      cases hn with
      | absolute hi => exact .inl hi.kind
      | relative hd => exact .inr hd

theorem annotation_complete : Complete k annotation (fun _ => TypeRef.AnnotationWritten)
    fun _ r o => TypeRef.AnnotationEnds r o := by
  intro s o ts c r w hl hr hne he
  cases w with
  | none =>
    refine ⟨c, annotation_ok.2 (.inr ⟨fun hcont => ?_, rfl, rfl⟩), .refl c, hr⟩
    rw [List.nil_append] at hr
    exact he (hr ▸ ⟨c.here, rfl, hcont⟩)
  | some hcont ht =>
    obtain ⟨c', htype, k1, h1⟩ := typeRef_complete (s := s) ht hl hr hne he
    refine ⟨c', annotation_ok.2 (.inl ⟨?_, _, c', htype, rfl, rfl⟩), k1, h1⟩
    obtain ⟨t, ht, hk⟩ := hcont
    cases ts with
    | nil => cases ht
    | cons u us =>
      obtain rfl := Option.some.inj ht
      rw [k1.here_eq]
      exact hk

section Lists

variable {α : Type} {separators : List TokenKind} {close : TokenKind}
  {written : Surroundings → α → List Token → Prop}
  {ends : Surroundings → List Token → α → Prop}

/-- At the end of a list stands the token that closes it, which is no word. -/
theorem ListWritten.front {t : Token} {as : List α}
    (hbegin : ∀ {a ts}, written s a ts → Begin ts) (hclose : ¬ close.Begins)
    (w : ListWritten separators close (written s) (ends s) as (t :: ts)) :
    t.kind ≠ .ident ∨ ts ≠ [] := by
  generalize hus : t :: ts = us at w
  cases w with
  | done ht =>
    obtain ⟨rfl, -⟩ := List.cons.inj hus
    refine .inl fun hk => hclose ?_
    rw [← ht, hk]
    decide
  | separated ha =>
    obtain ⟨u, vs, rfl, -⟩ := hbegin ha
    obtain ⟨-, rfl⟩ := List.cons.inj hus
    exact .inr (by simp)
  | unseparated ha =>
    obtain ⟨u, vs, rfl, -⟩ := hbegin ha
    obtain ⟨-, rfl⟩ := List.cons.inj hus
    exact .inr (by simp)

theorem ListWritten.length {as : List α} (hbegin : ∀ {a ts}, written s a ts → Begin ts)
    (w : ListWritten separators close (written s) (ends s) as ts) : as.length < ts.length := by
  induction w with
  | done => simp
  | separated _ _ _ _ ih =>
    simp only [List.length_append, List.length_cons]
    omega
  | unseparated ha _ _ _ _ ih =>
    have := List.length_pos_iff.2 (hbegin ha).ne_nil
    simp only [List.length_append, List.length_cons] at ih ⊢
    omega

/-- A list is read up to the token that closes it, whose weight does not count. -/
theorem listed_complete {item : Parser α} (hitem : Complete k item written ends)
    (hbegin : ∀ {a ts}, written s a ts → Begin ts) (hclose : ¬ close.Begins)
    (hseps : ∀ k ∈ separators, k ≠ .ident)
    (halike : ∀ {r r' a}, Alike r r' → ends s r a → ends s r' a) {as : List α}
    (w : ListWritten separators close (written s) (ends s) as ts) :
    ∀ {c : Cursor}, Light k ts.dropLast → c.rest = ts ++ r →
      ∃ c' us t, ts = us ++ [t] ∧ t.kind = close ∧ Listed separators close item s c as c' ∧
        c.Takes us c' ∧ c'.rest = t :: r := by
  have hfirst : ∀ {c : Cursor} {a us vs}, written s a us → c.rest = us ++ vs →
      c.here.kind ≠ close := by
    intro c a us vs ha hr hk
    obtain ⟨u, us, rfl, hu⟩ := hbegin ha
    obtain ⟨rfl, -⟩ := Cursor.rest_eq_cons hr
    exact hclose (hk ▸ hu)
  induction w with
  | @done t ht =>
    intro c _ hr
    obtain ⟨rfl, -⟩ := Cursor.rest_eq_cons hr
    exact ⟨c, [], _, rfl, ht, .done ht, .refl c, hr⟩
  | @separated a as t ts us ha he ht hs ih =>
    intro c hl hr
    have hne := hs.ne_nil
    rw [List.dropLast_append_of_ne_nil (by simp), List.dropLast_cons_of_ne_nil hne] at hl
    rw [List.append_assoc] at hr
    have hext := halike (alike_extend _ r (.inl (hseps _ ht))) he
    obtain ⟨c1, h1, k1, r1⟩ := hitem ha hl.left hr (by simp) hext
    obtain ⟨rfl, k2, r2⟩ := Cursor.next (r := us ++ r) r1 (by simp [hne])
    obtain ⟨c2, vs, v, rfl, hv, h3, k3, r3⟩ := ih hl.right.drop r2
    exact ⟨c2, ts ++ c1.here :: vs, v, by simp, hv, .separated (hfirst ha hr) h1 ht h3,
      k1.trans (k2.cons k3), r3⟩
  | @unseparated a as t ts us ha he ht hb hs ih =>
    intro c hl hr
    rw [List.dropLast_append_of_ne_nil (by simp)] at hl
    rw [List.append_assoc] at hr
    have hext := halike (alike_extend _ r (ListWritten.front hbegin hclose hs)) he
    obtain ⟨c1, h1, k1, r1⟩ := hitem ha hl.left hr (by simp) hext
    obtain ⟨rfl, -⟩ := Cursor.rest_eq_cons r1
    obtain ⟨c2, vs, v, hvs, hv, h3, k3, r3⟩ := ih hl.right r1
    exact ⟨c2, ts ++ vs, v, by rw [hvs, List.append_assoc], hv,
      .unseparated (hfirst ha hr) h1 ht hb h3, k1.trans k3, r3⟩

/-- The kinds that open, separate and close a list, none of which begins an item. -/
structure Closers (separators : List TokenKind) (close : TokenKind) : Prop where
  separators : ∀ k ∈ separators, k ≠ .ident
  close : ¬ close.Begins

theorem bracketed_complete {item : Parser α} {opener : TokenKind} {t : Token}
    (hitem : Complete k item written ends)
    (hbegin : ∀ {a ts}, written .item a ts → Begin ts) (hb : Closers separators close)
    (halike : ∀ {r r' a}, Alike r r' → ends .item r a → ends .item r' a) {as : List α}
    (ht : t.kind = opener)
    (w : ListWritten separators close (written .item) (ends .item) as ts)
    (hl : Light (k + 1) (t :: ts)) (hr : c.rest = t :: ts ++ r) (hne : r ≠ []) :
    ∃ c', bracketed opener separators close item s c = .ok as c' ∧ c.Takes (t :: ts) c' ∧
      c'.rest = r := by
  have hts : ts ++ r ≠ [] := by simp [hne]
  obtain ⟨rfl, k1, r1⟩ := Cursor.next (r := ts ++ r) hr hts
  obtain ⟨c1, us, u, rfl, hu, h2, k2, r2⟩ :=
    listed_complete hitem hbegin hb.close hb.separators halike w hl.tail.dropLast r1
  obtain ⟨rfl, k3, r3⟩ := Cursor.next r2 hne
  have hlen : as.length < c.advance.rest.length := by
    have := ListWritten.length hbegin w
    rw [r1, List.length_append]
    omega
  exact ⟨_, bracketed_ok.2 ⟨ht, c1, separated_of_listed h2 hlen, hu, rfl⟩, k1.cons (k2.trans k3),
    r3⟩

end Lists

end Parser

end Script
