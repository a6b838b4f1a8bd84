import Script.Proofs.Abreast.Program

/-!
The layout of a text does not matter beyond its line breaks. Where the tokens of two texts differ in
nothing but their positions, both are read as the same program, or both fail for the same cause.
-/
namespace Script

open Script.Parser

/-- What a token says, and whether it begins a line. -/
def Token.face (t : Token) : Word × Bool := (t.word, t.newlineBefore)

namespace Places

theorem like_anywhere_token {t u : Token} : anywhere.Like t u ↔ t.face = u.face := by
  rw [like_token, Token.face, Token.face, Prod.mk.injEq, Token.word, Token.word, Word.mk.injEq]
  simp [anywhere, and_assoc]

theorem like_anywhere_tokens {ts us : List Token} :
    anywhere.Like ts us ↔ ts.map Token.face = us.map Token.face := by
  induction ts generalizing us with
  | nil => cases us <;> simp [Like, Placed.move]
  | cons t ts ih =>
    cases us with
    | nil => simp [Like, Placed.move]
    | cons u us =>
      rw [like_cons, like_anywhere_token, ih, List.map_cons, List.map_cons, List.cons.injEq]

/-- What is alike anywhere is the same without its positions. -/
theorem erase_of_like {p q : Program} (h : anywhere.Like p.statements q.statements) :
    p.erase = q.erase := by
  simp only [Like, Placed.move] at h
  rw [Program.erase, Program.erase, Program.mapSpans, Program.mapSpans, Statement.mapSpansEach_eq,
    Statement.mapSpansEach_eq]
  exact congrArg (Program.mk · default) h

end Places

theorem Token.weight_of_face {ts us : List Token} (h : ts.map face = us.map face) :
    weight ts = weight us := by
  induction ts generalizing us with
  | nil => cases us <;> simp_all
  | cons t ts ih =>
    cases us with
    | nil => simp at h
    | cons u us =>
      obtain ⟨htu, hts⟩ := List.cons.inj h
      have htext : t.text = u.text := congrArg (fun x => x.1.text) htu
      rw [weight, weight, htext, ih hts]

namespace Program

/-- Sources whose tokens differ in nothing but their positions are read as the same program up to
positions, or fail for the same cause. -/
theorem parse_layout {a b : String} {ts us : List Token} (ha : tokenize a = .ok ts)
    (hb : tokenize b = .ok us) (h : ts.map Token.face = us.map Token.face) :
    (∃ p q, parse a = .ok p ∧ parse b = .ok q ∧ p.erase = q.erase) ∨
      ∃ e f, parse a = .error e ∧ parse b = .error f ∧ e.fault = f.fault := by
  obtain ⟨last, hl, rfl⟩ := tokenize_ok ha
  obtain ⟨last', hl', rfl⟩ := tokenize_ok hb
  have hlike := Places.like_anywhere_tokens.2 h
  rw [List.map_append, List.map_append] at h
  obtain ⟨htokens, hlast⟩ := List.append_inj' h rfl
  have hkind : last.kind = .endOfText := Lexed.scanFrom_last hl
  let σ := Lexed.seam .anywhere 0 a last hkind [] nofun
  have hcursor : (Lexed.ofString 0 a).cursor = σ.start := by rw [Lexed.cursor, Lexed.endToken, hl]; rfl
  have hcursor' : (Lexed.ofString 0 b).cursor.rest = (Lexed.ofString 0 b).tokens ++ [last'] := by
    rw [Lexed.cursor_rest, Lexed.endToken, hl']
  have hweight : σ.start.weight = (Lexed.ofString 0 b).cursor.weight := by
    rw [Cursor.weight, Cursor.weight, hcursor', Seam.start_rest]
    refine Token.weight_of_face ?_
    rw [List.map_append, List.map_append]
    exact h
  have hnear : σ.Near (σ.start.weight + 1) σ.start (Lexed.ofString 0 b).cursor := by
    refine Seam.near_start (Seam.start_before _ _) hcursor' (Places.like_anywhere_tokens.2 htokens)
      (.last rfl (Places.like_anywhere_token.2 (List.cons.inj hlast).1)) (fun _ => rfl) ?_
    rw [← Seam.start_rest]
    exact Nat.lt_succ_self _
  have hkept := (read_abreast σ (Nat.add_le_add_right (Nat.le_of_eq hweight) 1)).near
    (s := ⟨.expectValue, true⟩) hnear
  obtain ⟨p, q, c, c', hp, hq, hpq, -⟩ | ⟨e, f, c, c', he, hf, hef⟩ := kept_cases rfl hkept
  · rw [← hcursor] at hp
    exact .inl ⟨p, q, ofLexed_of_ok hl hp, ofLexed_of_ok hl' hq, Places.erase_of_like hpq⟩
  · rw [← hcursor] at he
    exact .inr ⟨e, f, ofLexed_of_error he (by simp [hl]), ofLexed_of_error hf (by simp [hl']),
      (Places.like_error.1 hef).1⟩

theorem parse_layout_call : ∃ p q, parse "f(1)" = .ok p ∧ parse " f( /* one */ 1 )" = .ok q ∧
    p.erase = q.erase := by
  obtain ⟨ts, ha⟩ : ∃ ts, tokenize "f(1)" = .ok ts := exists_of_isOk (by decide +kernel)
  obtain ⟨us, hb⟩ : ∃ us, tokenize " f( /* one */ 1 )" = .ok us :=
    exists_of_isOk (by decide +kernel)
  have hfaces : (tokenize "f(1)").toOption.map (List.map Token.face) =
      (tokenize " f( /* one */ 1 )").toOption.map (List.map Token.face) := by decide +kernel
  rw [ha, hb] at hfaces
  obtain h | ⟨e, f, he, -, -⟩ := parse_layout ha hb (Option.some.inj hfaces)
  · exact h
  · have hok : (parse "f(1)").isOk = true := by decide +kernel
    rw [he] at hok
    cases hok

end Program

end Script
