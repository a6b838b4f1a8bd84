import Script.Proofs.Openings
import Script.Proofs.Successes
import Script.Rules.Names

/-!
What the parsers of names, types and lists take is written as the rules say. A parser is sound if
every success takes tokens that are written as its result, and if the result ends before the tokens
that are left.
-/
namespace Script

namespace Cursor

variable {c c' : Cursor} {t : Token} {ts : List Token}

theorem Ended.takes_kind {k : TokenKind} (hc : c.Ended) (h : c.here.kind = k)
    (hk : k ≠ .endOfText) : c.Takes [c.here] c.advance :=
  hc.takes (by rw [h]; exact hk)

theorem Ended.takes_keyword {w : Keyword} (hc : c.Ended) (h : c.here.keyword? = some w) :
    c.Takes [c.here] c.advance :=
  hc.takes_kind (Token.kind_of_keyword? h) (by decide)

end Cursor

namespace Parser

/-- Every success of the parser takes tokens that are written as its result, which ends before the
tokens that are left. -/
def Sound {α : Type} (p : Parser α) (written : Surroundings → α → List Token → Prop)
    (ends : Surroundings → List Token → α → Prop) : Prop :=
  ∀ ⦃s c a c'⦄, c.Ended → p s c = .ok a c' →
    ∃ ts, c.Takes ts c' ∧ written s a ts ∧ ends s c'.rest a

variable {s : Surroundings} {c c' : Cursor}

theorem continuesWith_kind {k : TokenKind} {t : Token} (h : continuesWith k t = true) :
    t.kind = k := by
  simp only [continuesWith, Bool.and_eq_true, beq_iff_eq] at h
  exact h.1

theorem segments_sound {is : List Ident} (h : Items segment s c is c') (hc : c.Ended) :
    ∃ ts, c.Takes ts c' ∧ Ident.MoreWritten is ts := by
  induction h with
  | @done c c' h =>
    obtain ⟨-, -, -, h, -⟩ | ⟨-, -, rfl⟩ := segment_ok.1 h
    · cases h
    · exact ⟨[], .refl c, .nil⟩
  | @more c c1 c' i is h hs ih =>
    obtain ⟨hdot, hnext, hk, hi, rfl⟩ | ⟨-, hi, -⟩ := segment_ok.1 h
    · cases hi
      have k1 := hc.takes_kind (continuesWith_kind hdot) (by decide)
      have k2 := (hc.of_takes k1).takes_kind hk (by decide)
      obtain ⟨ts, k3, w3⟩ := ih ((hc.of_takes k1).of_takes k2)
      have hline : continuesWith .ident c.advance.here = true := by
        rw [Cursor.next?_eq k1.rest] at hnext
        simpa [Cursor.rest] using hnext
      exact ⟨_, k1.cons (k2.cons k3), .cons hdot hline ⟨hk, rfl⟩ w3⟩
    · cases hi

theorem name_sound : Sound name (fun _ => Name.Written) (fun _ _ _ => True) := by
  intro s c n c' hc h
  obtain ⟨hd, hk, is, c1, his, rfl, rfl⟩ | ⟨-, hk, is, c1, his, rfl, rfl⟩ := name_ok.1 h
  · have k1 := hc.takes_kind hd (by decide)
    have k2 := (hc.of_takes k1).takes_kind hk (by decide)
    obtain ⟨ts, k3, w3⟩ := segments_sound (items_of_collect his) ((hc.of_takes k1).of_takes k2)
    have k := k1.cons (k2.cons k3)
    refine ⟨_, k, ?_, trivial⟩
    rw [k.spanOf (by simp)]
    exact .relative hd ⟨hk, rfl⟩ w3
  · have k1 := hc.takes_kind hk (by decide)
    obtain ⟨ts, k2, w2⟩ := segments_sound (items_of_collect his) (hc.of_takes k1)
    have k := k1.cons k2
    refine ⟨_, k, ?_, trivial⟩
    rw [k.spanOf (by simp)]
    exact .absolute ⟨hk, rfl⟩ w2

theorem typeRef_sound : Sound typeRef (fun _ => TypeRef.Written)
    (fun _ r t => Dotless r → t.EndsBefore r) := by
  intro s c t c' hc h
  obtain ⟨type, ht, rfl, rfl⟩ | ⟨hb, -, n, c1, hn, rfl, rfl⟩ := typeRef_ok.1 h
  · unfold builtin? at ht
    split at ht
    · rename_i hk
      exact ⟨_, hc.takes_kind hk (by decide), .primitive hk ht, fun _ => trivial⟩
    · cases ht
  · obtain ⟨ts, k, w, -⟩ := name_sound hc hn
    refine ⟨ts, k, ?_, id⟩
    cases ts with
    | nil => cases w
    | cons t ts =>
      refine .named w fun ht => ?_
      rw [← k.here_eq] at ht ⊢
      simpa [builtin?, ht] using hb

theorem annotation_sound : Sound annotation (fun _ => TypeRef.AnnotationWritten)
    (fun _ r o => Dotless r → TypeRef.AnnotationEnds r o) := by
  intro s c o c' hc h
  obtain ⟨hi, t, c1, ht, rfl, rfl⟩ | ⟨hi, rfl, rfl⟩ := annotation_ok.1 h
  · obtain ⟨ts, k, w, e⟩ := typeRef_sound hc ht
    refine ⟨ts, k, .some ?_ w, e⟩
    cases ts with
    | nil => cases w
    | cons t ts => exact ⟨t, rfl, k.here_eq ▸ hi⟩
  · exact ⟨[], .refl c, .none, fun _ hcont => hi (Cursor.continues_rest.1 hcont)⟩

/-- The kinds that open, separate and close the items of a bracketed list. -/
structure Brackets (opener : TokenKind) (separators : List TokenKind) (close : TokenKind) :
    Prop where
  opener : opener ≠ .endOfText
  separators : ∀ k ∈ separators, Delimits k ∧ k ≠ .endOfText
  close : Delimits close ∧ close ≠ .endOfText

/-- The items of a list are sound, and each of them ends before a separator, the token that closes
the list or a line break. The tokens include the closing one, at which the run stops. -/
theorem listed_sound {α : Type} {separators : List TokenKind} {close : TokenKind}
    {item : Parser α} {written : Surroundings → α → List Token → Prop}
    {ends : Surroundings → List Token → α → Prop}
    (hitem : Sound item written fun s r a => Apart r → ends s r a)
    (halike : ∀ {s r r' a}, Alike r r' → ends s r a → ends s r' a)
    (hseps : ∀ k ∈ separators, Delimits k ∧ k ≠ .endOfText) (hclose : Delimits close)
    {as : List α} (h : Listed separators close item s c as c') (hc : c.Ended) :
    ∃ ts, c.Takes ts c' ∧ c'.here.kind = close ∧
      ListWritten separators close (written s) (ends s) as (ts ++ [c'.here]) := by
  induction h with
  | @done c h => exact ⟨[], .refl c, h, .done h⟩
  | @separated c c1 c' a as _ h hsep hs ih =>
    obtain ⟨ts, k1, w1, e1⟩ := hitem hc h
    obtain ⟨hdelim, hend⟩ := hseps _ hsep
    have k2 := (hc.of_takes k1).takes hend
    obtain ⟨us, k3, hk, w3⟩ := ih ((hc.of_takes k1).of_takes k2)
    have halone : Alike c1.rest (c1.here :: (us ++ [c'.here])) := by
      have hr : c1.rest = (c1.here :: (us ++ [c'.here])) ++ c'.ahead := by
        rw [k2.rest, k3.rest]
        simp [Cursor.rest]
      rw [hr]
      exact alike_append (by simp) _
    refine ⟨ts ++ c1.here :: us, k1.trans (k2.cons k3), hk, ?_⟩
    rw [List.append_assoc]
    exact .separated w1 (halike halone (e1 hdelim.apart)) hsep w3
  | @unseparated c c1 c' a as _ h hsep hend hs ih =>
    obtain ⟨ts, k1, w1, e1⟩ := hitem hc h
    obtain ⟨us, k3, hk, w3⟩ := ih (hc.of_takes k1)
    have hapart : Apart c1.rest := by
      rcases hend with hend | hend
      · exact (hend ▸ hclose : Delimits c1.here.kind).apart
      · exact apart_of_break hend
    have hr : c1.rest = (us ++ [c'.here]) ++ c'.ahead := by
      rw [k3.rest]
      simp [Cursor.rest]
    have he := halike (hr ▸ alike_append (by simp) _) (e1 hapart)
    refine ⟨ts ++ us, k1.trans k3, hk, ?_⟩
    rw [List.append_assoc]
    cases hus : us ++ [c'.here] with
    | nil => simp at hus
    | cons t vs =>
      have ht : c1.here = t := by
        rw [hus] at hr
        exact (Cursor.rest_eq_cons hr).1
      subst ht
      rw [hus] at he w3
      exact .unseparated w1 he hsep hend w3

theorem bracketed_sound {α : Type} {opener close : TokenKind} {separators : List TokenKind}
    {item : Parser α} {written : Surroundings → α → List Token → Prop}
    {ends : Surroundings → List Token → α → Prop}
    (hitem : Sound item written fun s r a => Apart r → ends s r a)
    (halike : ∀ {s r r' a}, Alike r r' → ends s r a → ends s r' a)
    (hb : Brackets opener separators close) {as : List α}
    (h : bracketed opener separators close item s c = .ok as c') (hc : c.Ended) :
    ∃ ts, c.Takes (c.here :: ts) c' ∧ c.here.kind = opener ∧
      ListWritten separators close (written .item) (ends .item) as ts := by
  obtain ⟨ho, c1, hs, hk, rfl⟩ := bracketed_ok.1 h
  have k1 := hc.takes_kind ho hb.opener
  obtain ⟨ts, k2, -, w⟩ :=
    listed_sound hitem halike hb.separators hb.close.1 (listed_of_separated hs) (hc.of_takes k1)
  have k3 := ((hc.of_takes k1).of_takes k2).takes_kind hk hb.close.2
  exact ⟨_, k1.cons (k2.trans k3), ho, w⟩

end Parser

end Script
