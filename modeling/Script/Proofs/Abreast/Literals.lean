import Script.Proofs.Abreast.Names
import Script.Grammar.Expression

/-!
Texts at two places. A text is lexed and taken apart in the same way wherever it stands, whether that
succeeds or fails, and so are the holes of a literal.
-/
namespace Script

open Chars

variable {P : Places}

theorem Lexed.scanFrom_like (cs : List Char) : ∀ {skip pos pos' : Nat} {newline : Bool},
    P.left pos = P.right pos' →
      P.Like (scanFrom skip pos newline cs) (scanFrom skip pos' newline cs) := by
  induction cs with
  | nil =>
    intro skip pos pos' newline h
    simp_all [Places.Like, Placed.move, scanFrom, Token.endAt, Token.move]
  | cons c cs ih =>
    intro skip pos pos' newline h
    cases skip with
    | succ k => exact ih h
    | zero =>
      unfold scanFrom
      dsimp only
      split
      · have hstop := P.add (byteLength ((c :: cs).take ‹Misfit›.length)) h
        simp_all [Places.Like, Placed.move, Span.move]
      · rename_i lexeme m _
        have hstop := P.add (byteLength (c :: cs.take m)) h
        cases lexeme with
        | blank => exact ih hstop
        | token kind =>
          have hrest : P.Like (scanFrom m _ false cs) (scanFrom m _ false cs) := ih hstop
          simp_all [Places.Like, Placed.move, Token.move]

theorem Lexed.ofString_like {base base' : Nat} (h : P.left base = P.right base') (text : String) :
    P.Like (ofString base text) (ofString base' text) :=
  scanFrom_like text.toList h

/-- A hole is read in the same way wherever its dollar sign stands. -/
theorem RawHole.read_cases (cs : List Char) (dollar dollar' : Nat) :
    (∃ kind text n, RawHole.read dollar cs = .ok (⟨kind, text, dollar⟩, n) ∧
        RawHole.read dollar' cs = .ok (⟨kind, text, dollar'⟩, n)) ∨
      ∃ fault, RawHole.read dollar cs = .error ⟨fault, dollar, dollar + 1⟩ ∧
        RawHole.read dollar' cs = .error ⟨fault, dollar', dollar' + 1⟩ := by
  unfold RawHole.read
  split
  · split
    · exact .inl ⟨_, _, _, rfl, rfl⟩
    · exact .inr ⟨_, rfl, rfl⟩
  · split
    · exact .inr ⟨_, rfl, rfl⟩
    · exact .inl ⟨_, _, _, rfl, rfl⟩

namespace Piece

theorem atoms_like {form : StringForm} {skip pos pos' : Nat} {cs : List Char}
    (h : P.left pos = P.right pos') : P.Like (atoms form skip pos cs) (atoms form skip pos' cs) := by
  fun_induction atoms form skip pos cs generalizing pos' with
  | case1 => rfl
  | case2 pos c cs k ih => exact ih (P.add _ h)
  | case3 pos c hc =>
    have h1 := P.add 1 h
    simp_all [Places.Like, Placed.move, atoms, Span.move]
  | case4 pos c hc e rest d hd ih =>
    rw [atoms, if_pos hc]
    simp only [hd]
    exact (ih (P.add _ (P.add 1 h))).map fun as bs hab => Places.like_cons.2 ⟨rfl, hab⟩
  | case5 pos c hc e rest hd =>
    have h1 := P.add e.utf8Size (P.add 1 h)
    rw [atoms, if_pos hc]
    simp_all [Places.Like, Placed.move, Span.move]
  | case6 pos c cs hc hdollar e he =>
    rw [atoms.eq_def form 0 pos' (c :: cs)]
    simp only [if_neg hc, if_pos hdollar]
    obtain ⟨_, _, _, hr, -⟩ | ⟨fault, hr, hr'⟩ := RawHole.read_cases cs pos pos'
    · cases he.symm.trans hr
    · cases he.symm.trans hr
      have h1 := P.add 1 h
      simp_all [Places.Like, Placed.move, Span.move]
  | case7 pos c cs hc hdollar x n hread ih =>
    rw [atoms.eq_def form 0 pos' (c :: cs)]
    simp only [if_neg hc, if_pos hdollar]
    obtain ⟨kind, text, m, hr, hr'⟩ | ⟨fault, hr, -⟩ := RawHole.read_cases cs pos pos'
    · cases hread.symm.trans hr
      rw [hr']
      refine (ih (P.add 1 h)).map fun as bs hab => Places.like_cons.2 ⟨?_, hab⟩
      simp_all [Places.Like, Placed.move, Atom.move, RawHole.move]
    · cases hread.symm.trans hr
  | case8 pos c cs hc hdollar ih =>
    rw [atoms.eq_def form 0 pos' (c :: cs)]
    simp only [if_neg hc, if_neg hdollar]
    exact (ih (P.add _ h)).map fun as bs hab => Places.like_cons.2 ⟨rfl, hab⟩

theorem join_like : ∀ {as bs : List Atom} {run : List Char}, P.Like as bs →
    P.Like (join run as) (join run bs) := by
  intro as bs run h
  show (join run as).map (move P.left) = (join run bs).map (move P.right)
  rw [← join_move, ← join_move]
  exact congrArg (join run) h

end Piece

theorem decode_like {start start' : Nat} (h : P.left start = P.right start') (literal : String) :
    P.Like (decode literal start) (decode literal start') := by
  unfold decode
  dsimp only
  generalize (StringForm.opening? literal.toList).getD .double = form
  have hatoms : P.Like (Piece.atoms form 0 _ (form.body literal.toList)) (Piece.atoms form 0 _ _) :=
    Piece.atoms_like (P.add (byteLength form.opener) h)
  obtain ⟨as, bs, ha, hb, hab⟩ | ⟨e, e', ha, hb, he⟩ := Places.like_except hatoms
  · rw [ha, hb]
    exact congrArg (fun pieces => Except.ok (Decoded.mk form pieces)) (Piece.join_like hab)
  · rw [ha, hb]
    exact congrArg Except.error he

theorem LexError.inLiteral_like {e e' : LexError} (h : P.Like e e') :
    P.Like e.inLiteral e'.inLiteral := by
  obtain ⟨hfault, hspan⟩ := LexError.mk.inj h
  rw [LexError.inLiteral, LexError.inLiteral, hfault]
  split <;> exact Places.like_error.2 ⟨rfl, hspan⟩

namespace Parser

open Outcome

variable {α : Type} [Placed α] {n : Nat} {nested nested' : Nested}

/-- Reads with `p` up to the end of a text. -/
def toEnd (p : Parser α) : Parser α := do
  let a ← p
  let _ ← token .endOfText
  return a

theorem toEnd_kept {σ : Seam} {s : Surroundings} {c d : Cursor} {p q : Parser α}
    (hm : σ.more = []) (h : Kept σ (fun _ => n) σ.Like (p s c) (q s d)) :
    Kept σ (fun _ => n) σ.Like (toEnd p s c) (toEnd q s d) := by
  refine kept_bind h (fun a b c' d' hab hc => ?_) fun hg =>
    gone_bind hg fun _ _ _ _ ha => absurd hm ha.cut
  rw [token_bind, token_bind, hc.like.kind]
  split
  · rename_i hk
    obtain ⟨hc', hd'⟩ := hc.ahead_of_end (hc.like.kind.trans hk)
    rw [Cursor.advance, hc', Cursor.advance, hd']
    exact .ok hab hc
  · exact .error (Places.like_error.2 ⟨by rw [hc.like.describe], hc.like.span⟩)

theorem inHole_like {x y : RawHole} (h : P.Like x y) (hx : x.text.utf8ByteSize < n)
    {p q : Parser α} (hp : ∀ σ : Seam, σ.places = P → Strict σ n p q) :
    P.Like (inHole x p) (inHole y q) := by
  have htext : x.text = y.text := (RawHole.mk.inj h).2.1
  have hstart : P.left x.start = P.right y.start := by
    obtain ⟨hkind, -, hdollar⟩ := RawHole.mk.inj h
    rw [RawHole.start, RawHole.start, hkind]
    cases y.kind with
    | name => exact P.add 1 hdollar
    | expr => exact P.add 2 hdollar
  obtain ⟨htokens, hlast⟩ := Lexed.mk.inj (Lexed.ofString_like hstart x.text)
  rw [inHole, inHole, ← htext]
  dsimp only
  obtain ⟨last, last', hl, hl', hll⟩ | ⟨e, e', hl, hl', he⟩ := Places.like_except hlast
  · rw [hl, hl']
    dsimp only
    have hkind : last.kind = .endOfText := Lexed.scanFrom_last hl
    have hw : Token.weight ((Lexed.ofString x.start x.text).tokens ++ [last]) < n :=
      Nat.lt_of_le_of_lt (Lexed.weight_le hl) hx
    have hnear : (Lexed.seam P x.start x.text last hkind [] (by simp)).Near n
        (Cursor.start (Lexed.ofString x.start x.text).tokens last)
        (Cursor.start (Lexed.ofString y.start x.text).tokens last') :=
      Seam.near_start (Seam.start_before _ _) (Cursor.start_rest _ _) htokens (.last rfl hll)
        (fun _ => rfl) hw
    have hp' := ((hp _ rfl).lax (Nat.le_refl n)).near (s := ⟨.expectValue, true⟩) hnear
    have hkept := toEnd_kept rfl hp'
    unfold toEnd at hkept
    obtain ⟨a, b, c, d, hc, hd, hab, -⟩ | ⟨e, e', c, d, hc, hd, he⟩ := kept_cases rfl hkept
    · rw [hc, hd]
      exact congrArg Except.ok hab
    · rw [hc, hd]
      exact congrArg Except.error he
  · rw [hl, hl']
    obtain ⟨hfault, hspan⟩ := LexError.mk.inj he
    exact congrArg Except.error (Places.like_error.2 ⟨congrArg ParseFault.lexical hfault, hspan⟩)

theorem part_like (hn : nested.Abreast P n nested') {x y : Piece} (h : P.Like x y)
    (hx : ∀ hole, x = .hole hole → hole.text.utf8ByteSize < n) :
    P.Like (part nested x) (part nested' y) := by
  cases x with
  | text t =>
    cases y with
    | text u => exact congrArg (fun t => Except.ok (StringPart.text t)) (Piece.text.inj h)
    | hole y => cases h
  | hole x =>
    cases y with
    | text u => cases h
    | hole y =>
      have hxy : P.Like x y := Piece.hole.inj h
      have hsize := hx x rfl
      rw [part, part, hole, hole, (RawHole.mk.inj hxy).1]
      cases y.kind with
      | name =>
        have hin : P.Like (inHole x name) (inHole y name) :=
          inHole_like hxy hsize fun _ _ _ _ => name_abreast
        exact hin.map fun _ _ hab => congrArg StringPart.nameHole hab
      | expr =>
        refine Places.Like.map (inHole_like hxy hsize fun σ hσ k hk => ?_) fun _ _ hab =>
          congrArg StringPart.exprHole hab
        exact (hn.value hσ .group k hk).within _ _

theorem parts_like (hn : nested.Abreast P n nested') :
    ∀ {xs ys : List Piece}, P.Like xs ys →
      (∀ hole, .hole hole ∈ xs → hole.text.utf8ByteSize < n) →
      P.Like (xs.mapM (part nested)) (ys.mapM (part nested')) := by
  intro xs
  induction xs with
  | nil =>
    intro ys h _
    cases ys with
    | nil => rfl
    | cons y ys => cases h
  | cons x xs ih =>
    intro ys h hsize
    cases ys with
    | nil => cases h
    | cons y ys =>
      obtain ⟨hxy, hxys⟩ := Places.like_cons.1 h
      have hpart := part_like hn hxy fun hole hx => hsize hole (by simp [hx])
      have hparts := ih hxys fun hole hx => hsize hole (by simp [hx])
      rw [List.mapM_cons, List.mapM_cons]
      obtain ⟨p, q, hp, hq, hpq⟩ | ⟨e, e', hp, hq, he⟩ := Places.like_except hpart
      · rw [hp, hq]
        exact hparts.map fun _ _ hab => Places.like_cons.2 ⟨hpq, hab⟩
      · rw [hp, hq]
        exact congrArg Except.error he

/-- A literal that takes no more than `n` bytes says the same wherever it stands. -/
theorem literalOf_like (hn : nested.Abreast P n nested') {t u : Token} (h : P.Like t u)
    (ht : t.text.utf8ByteSize ≤ n) : P.Like (literalOf nested t) (literalOf nested' u) := by
  have hdecode := decode_like h.start t.text
  rw [literalOf, literalOf, ← h.text]
  obtain ⟨d, d', hd, hd', hdd⟩ | ⟨e, e', hd, hd', he⟩ := Places.like_except hdecode
  · obtain ⟨hform, hpieces⟩ := Decoded.mk.inj hdd
    have hparts := parts_like hn hpieces fun hole hh => Nat.lt_of_lt_of_le (decode_size hd hh) ht
    rw [hd, hd']
    dsimp only
    obtain ⟨ps, qs, hp, hq, hpq⟩ | ⟨e, e', hp, hq, he⟩ := Places.like_except hparts
    · rw [hp, hq]
      have hspan := h.span
      simp_all [Places.Like, Placed.move, StringLiteral.mapSpans]
    · rw [hp, hq]
      exact congrArg Except.error he
  · rw [hd, hd']
    exact congrArg Except.error (LexError.inLiteral_like he)

end Parser

end Script
