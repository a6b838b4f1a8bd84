import Script.Proofs.Abreast.Parsers

/-!
The parsers of names and types side by side. A point at the end of a list goes on with a name only if
a segment follows it, so it is here that a list which goes on can be read otherwise.
-/
namespace Script

namespace Parser

open Outcome Seam

variable {σ : Seam} {n : Nat} {s : Surroundings} {c d : Cursor}

theorem like_ident {t u : Token} (h : σ.Like t u) :
    σ.Like (⟨t.text, t.span⟩ : Ident) ⟨u.text, u.span⟩ := by
  have hspan := h.span
  simp_all [Places.Like, Placed.move, Ident.mapSpans, h.text]

theorem ident_abreast : Abreast σ (n + 1) (fun _ => n) σ.Like ident ident :=
  (token_abreast (by decide)).bind fun _ _ h => .pure (like_ident h) (Nat.le_refl n)

/-- A further segment, or nothing where a point is not followed by one. -/
theorem segment_eq : segment s c =
    if continuesWith .dot c.here && (c.next?.map (continuesWith .ident)).getD false then
      (do
        let _ ← advance
        return some (← ident) : Parser (Option Ident)) s c
    else .ok none c := by
  rw [segment, here_bind, nextHas_bind, ite_apply]
  rfl

theorem segment_abreast : StepsAbreast σ n segment segment := by
  intro k _
  have hmore : Abreast σ (k + 1) (afterStep k) σ.Like
      (do
        let _ ← advance
        return some (← ident) : Parser (Option Ident))
      (do
        let _ ← advance
        return some (← ident) : Parser (Option Ident)) :=
    advance_abreast.bind fun _ _ _ => ident_abreast.bind fun _ _ hi =>
      .pure (Places.like_some.2 hi) (Nat.le_refl k)
  constructor
  · intro s c d hc
    rw [segment_eq, segment_eq, hc.like.continues .dot]
    rcases hc.next_map (continuesWith .ident) fun h => h.continues .ident with hnext | ⟨hlast, hd⟩
    · rw [hnext]
      split
      · exact hmore.near hc
      · exact .ok Places.like_none hc
    · rw [hlast.not_next (σ.not_continues_last (by decide)), Bool.and_false, if_neg (by decide)]
      split
      · rename_i hboth
        rw [Bool.and_eq_true, ← hc.like.continues .dot, Cursor.next?, hd] at hboth
        -- The other list goes on with the name, so the first one is left at the point.
        refine .gone (.ok Places.like_none ⟨hlast.cut, hc.reaches, .inr ⟨hboth.1, hlast.rest, ?_⟩,
          hc.light⟩)
        cases hm : σ.more with
        | nil => exact absurd hm hlast.cut
        | cons t ts => exact ⟨t, rfl, by simpa [hm] using hboth.2⟩
      · exact .ok Places.like_none hc
  · intro s c hc
    rw [segment_eq, hc.not_next (σ.not_continues_last (by decide)), Bool.and_false,
      if_neg (by decide)]
    exact .ok Places.like_none hc

/-- What is left of a name after its first segment. -/
theorem nameRest_abreast {i j : Nat} (hij : σ.places.left i = σ.places.right j) (relative : Bool)
    {first first' : Ident} (hf : σ.Like first first') :
    Abreast σ n (fun _ => n) σ.Like
      (do
        let others ← collect segment
        return ⟨relative, first :: others, ← spanFrom i⟩ : Parser Name)
      (do
        let others ← collect segment
        return ⟨relative, first' :: others, ← spanFrom j⟩ : Parser Name) := by
  refine (collect_abreast segment_abreast).bind fun is is' his => ?_
  refine (spanFrom_abreast hij).bind fun x x' hx => .pure ?_ (Nat.le_refl n)
  simp_all [Places.Like, Placed.move, Name.mapSpans]

theorem name_abreast : Abreast σ (n + 1) (fun _ => n) σ.Like name name := by
  refine position_abreast.bind fun i j hij => (skip_abreast .dot).bind ?_
  rintro relative _ rfl
  exact ident_abreast.bind fun first first' hf => nameRest_abreast hij relative hf

theorem primitive?_abreast : Abreast σ n (fun _ => n) Eq primitive? primitive? := by
  refine here_abreast.bind fun t u h => ?_
  rw [h.kind, h.text]
  exact .pure rfl (Nat.le_refl n)

/-- A name or the word of a built-in type, either of which takes at least one byte. -/
theorem typeRef_abreast : Abreast σ n (fun _ => n) σ.Like typeRef typeRef := by
  refine primitive?_abreast.bind ?_
  rintro o _ rfl
  cases o with
  | some type =>
    refine advance_abreast.bind fun t u h => .pure ?_ (Nat.le_refl n)
    have hspan := h.span
    simp_all [Places.Like, Placed.move, TypeRef.mapSpans, TypeKind.mapSpans]
  | none =>
    refine (isAtAny_abreast _).bind fun b b' hb => .ite hb (fun _ => ?_) fun _ => unexpected_abreast _
    refine (Abreast.lax fun k _ => name_abreast).bind fun x y h => .pure ?_ (Nat.le_refl n)
    have hspan := h.nameSpan
    simp_all [Places.Like, Placed.move, TypeRef.mapSpans, TypeKind.mapSpans]

theorem annotation_abreast : Abreast σ n (fun _ => n) σ.Like annotation annotation := by
  refine here_abreast.bind fun t u h => .ite (h.continues .ident) (fun _ => ?_) fun _ => ?_
  · exact typeRef_abreast.bind fun x y hxy => .pure (Places.like_some.2 hxy) (Nat.le_refl n)
  · exact .pure Places.like_none (Nat.le_refl n)

section LastWord

variable (hc : σ.AtLast (n + 1) c) (hk : c.here.kind = .ident)
include hc hk

theorem name_gone : Gone σ (fun _ => n) σ.Like (name s c) := by
  obtain ⟨u, hu⟩ := σ.places.exists_like_token c.here
  have hident : Gone σ (fun _ => n) σ.Like (ident s c) := by
    rw [ident, token_bind, if_pos hk]
    exact .ok (like_ident hu) hc.advance.2
  rw [name, position_bind, skip_bind, if_neg (by simp [hk])]
  exact gone_bind hident fun _ _ _ hi ha => (nameRest_abreast hu.start false hi).away ha

end LastWord

end Parser

end Script
