import Script.Proofs.Lexing.Moves
import Script.Proofs.Moved.Ends
import Script.Proofs.Openings

/-!
What tokens are written as when they are moved. The same tree with its spans moved: no rule looks
at a position, and each span is put together of the positions of tokens.
-/
namespace Script

/-- A map of positions that keeps their order. -/
def Ordered (σ : Nat → Nat) : Prop := ∀ a b, a ≤ b → σ a ≤ σ b

theorem Ordered.map_max {σ : Nat → Nat} (h : Ordered σ) (a b : Nat) :
    σ (max a b) = max (σ a) (σ b) := by
  rcases Nat.le_total a b with hab | hab
  · rw [Nat.max_eq_right hab, Nat.max_eq_right (h a b hab)]
  · rw [Nat.max_eq_left hab, Nat.max_eq_left (h b a hab)]

theorem Ordered.map_min {σ : Nat → Nat} (h : Ordered σ) (a b : Nat) :
    σ (min a b) = min (σ a) (σ b) := by
  rcases Nat.le_total a b with hab | hab
  · rw [Nat.min_eq_left hab, Nat.min_eq_left (h a b hab)]
  · rw [Nat.min_eq_right hab, Nat.min_eq_right (h b a hab)]

theorem ordered_add (k : Nat) : Ordered (· + k) := fun _ _ h => Nat.add_le_add_right h k

theorem ordered_sub (k : Nat) : Ordered (· - k) := fun _ _ h => Nat.sub_le_sub_right h k

theorem ordered_place (k pos : Nat) : Ordered fun i => i - k + pos :=
  fun _ _ h => Nat.add_le_add_right (Nat.sub_le_sub_right h k) pos

variable {σ : Nat → Nat} {ts us : List Token} {t : Token} {s : Surroundings} {r : List Token}

theorem Span.move_cover (h : Ordered σ) (a b : Span) :
    (a.cover b).move σ = (a.move σ).cover (b.move σ) := by
  simp only [Span.cover, Span.move]
  exact congr (congrArg Span.mk (h.map_min _ _)) (h.map_max _ _)

theorem RigidOn.move_stop (h : RigidOn σ ts) :
    (ts.map (Token.move σ)).getLast?.map Token.stop =
      (ts.getLast?.map Token.stop).map σ := by
  rw [List.getLast?_map]
  cases hlast : ts.getLast? with
  | none => rfl
  | some t =>
    have ht := h t (List.mem_of_getLast? hlast)
    exact congrArg some (ht t.text.utf8ByteSize).symm

theorem Token.move_spanFrom (ho : Ordered σ) (h : RigidOn σ ts) (hts : ts ≠ []) (start : Nat) :
    Token.spanFrom (σ start) (ts.map (Token.move σ)) = (Token.spanFrom start ts).move σ := by
  simp only [Token.spanFrom, Span.move, h.move_stop]
  cases hlast : ts.getLast? with
  | none => exact absurd (List.getLast?_eq_none_iff.1 hlast) hts
  | some t => exact congrArg (Span.mk _) (ho.map_max _ _).symm

theorem Token.move_spanOf (ho : Ordered σ) (h : RigidOn σ ts) (hts : ts ≠ []) :
    Token.spanOf (ts.map (Token.move σ)) = (Token.spanOf ts).move σ := by
  cases ts with
  | nil => exact absurd rfl hts
  | cons t ts => exact Token.move_spanFrom ho h (by simp) t.start

theorem alike_move (σ : Nat → Nat) (r : List Token) : Alike r (r.map (Token.move σ)) := by
  constructor
  · cases r with
    | nil => nofun
    | cons t r =>
      intro u hu
      obtain rfl := Option.some.inj hu
      exact ⟨t, rfl, rfl, rfl⟩
  · rintro ⟨_, _, _, hr, ht, hu⟩
    obtain ⟨t, r, rfl, rfl, hrest⟩ := List.map_eq_cons_iff.1 hr
    obtain ⟨u, us, rfl, rfl, -⟩ := List.map_eq_cons_iff.1 hrest
    exact ⟨t, u, us, rfl, ht, hu⟩

theorem Continues.move {kind : TokenKind} (h : Continues kind ts) :
    Continues kind (ts.map (Token.move σ)) := by
  obtain ⟨t, ht, hk⟩ := h
  cases ts with
  | nil => cases ht
  | cons u ts =>
    obtain rfl := Option.some.inj ht
    exact ⟨u.move σ, rfl, hk⟩

theorem Ident.Written.move {i : Ident} (h : i.Written t) (ht : RigidAt σ t.start) :
    (i.mapSpans (Span.move σ)).Written (t.move σ) := by
  obtain ⟨hk, rfl⟩ := h
  refine ⟨hk, ?_⟩
  rw [Token.move_span ht]
  rfl

theorem Ident.MoreWritten.move {is : List Ident} (h : Ident.MoreWritten is ts)
    (hts : RigidOn σ ts) :
    Ident.MoreWritten (is.map (Ident.mapSpans (Span.move σ))) (ts.map (Token.move σ)) := by
  induction h with
  | nil => exact .nil
  | cons hd ht hi _ ih =>
    simp only [RigidOn, List.forall_mem_cons] at hts
    exact .cons hd ht (hi.move hts.2.1) (ih hts.2.2)

theorem Name.Written.move (ho : Ordered σ) {n : Name} (h : n.Written ts) (hts : RigidOn σ ts) :
    (n.mapSpans (Span.move σ)).Written (ts.map (Token.move σ)) := by
  cases h with
  | absolute hi his =>
    rw [Name.mapSpans, ← Token.move_spanOf ho hts (by simp)]
    simp only [RigidOn, List.forall_mem_cons] at hts
    exact .absolute (hi.move hts.1) (his.move hts.2)
  | relative hd hi his =>
    rw [Name.mapSpans, ← Token.move_spanOf ho hts (by simp)]
    simp only [RigidOn, List.forall_mem_cons] at hts
    exact .relative hd (hi.move hts.2.1) (his.move hts.2.2)

theorem TypeRef.Written.move (ho : Ordered σ) {type : TypeRef} (h : type.Written ts)
    (hts : RigidOn σ ts) :
    (type.mapSpans (Span.move σ)).Written (ts.map (Token.move σ)) := by
  cases h with
  | primitive hk ht =>
    rw [TypeRef.mapSpans, ← Token.move_span (hts _ (by simp))]
    exact .primitive hk ht
  | named hn ht => exact .named (hn.move ho hts) ht

theorem TypeRef.AnnotationWritten.move (ho : Ordered σ) {o : Option TypeRef}
    (h : TypeRef.AnnotationWritten o ts) (hts : RigidOn σ ts) :
    TypeRef.AnnotationWritten (o.map (TypeRef.mapSpans (Span.move σ))) (ts.map (Token.move σ)) := by
  cases h with
  | none => exact .none
  | some hc ht => exact .some hc.move (ht.move ho hts)

/-- A list whose items may be moved may be moved. -/
theorem ListWritten.move {α : Type} {separators : List TokenKind} {close : TokenKind}
    {written written' : α → List Token → Prop} {ends : List Token → α → Prop} {f : α → α}
    {as : List α} (h : ListWritten separators close written ends as ts) (hts : RigidOn σ ts)
    (hw : ∀ a ts, written a ts → RigidOn σ ts → written' (f a) (ts.map (Token.move σ)))
    (he : ∀ a r, ends r a → ends (r.map (Token.move σ)) (f a)) :
    ListWritten separators close written' ends (as.map f) (ts.map (Token.move σ)) := by
  induction h with
  | done ht => exact .done ht
  | @separated a as t ts us ha hend ht _ ih =>
    rw [RigidOn, List.forall_mem_append, List.forall_mem_cons] at hts
    rw [List.map_append]
    exact .separated (hw _ _ ha hts.1) (he _ _ hend) ht (ih hts.2.2)
  | @unseparated a as t ts us ha hend ht hb _ ih =>
    rw [RigidOn, List.forall_mem_append] at hts
    rw [List.map_append]
    exact .unseparated (hw _ _ ha hts.1) (he _ _ hend) ht hb (ih hts.2)

end Script
