import Script.Proofs.Abreast.Expression

/-!
The parsers of `if`, `for` and `when` side by side. An `else` and the variable of a loop are told by
the token after them, so it is at these that the end of a list is read otherwise than what goes on.
-/
namespace Script.Parser

open Outcome Seam

variable {σ : Seam} {n k : Nat} {nested nested' : Nested} {s : Surroundings} {c d : Cursor}

theorem condition_strict (hn : nested.Abreast σ.places n nested') :
    Strict σ n (condition nested) (condition nested') :=
  fun k hk => (hn.expr rfl .group k hk).inHead

theorem condition_abreast (hn : nested.Abreast σ.places n nested') :
    Abreast σ n (fun _ => n) σ.Like (condition nested) (condition nested') :=
  (condition_strict hn).lax (Nat.le_refl n)

theorem block_lax (hn : nested.Abreast σ.places n nested') :
    Abreast σ n (fun _ => n) σ.Like (block nested) (block nested') :=
  (block_strict hn).lax (Nat.le_refl n)

section Else

theorem not_atElse {c : Cursor} (h : c.here.keyword? ≠ some .elseWord) : atElse c = false := by
  have hfalse : (c.here.keyword? == some .elseWord) = false := by simpa using h
  rw [atElse, hfalse, Bool.false_and]

/-- Whether an `else` belongs to an `if` is told alike, unless a list ends after the `else`. -/
theorem atElse_like (hc : σ.Near n c d) (hw : ¬ (σ.AtLast n c ∧ c.here.keyword? = some .elseWord)) :
    atElse c = atElse d := by
  rcases hc.next_map (·.kind != .arrow) (fun h => by rw [h.kind]) with hnext | ⟨hlast, -⟩
  · rw [atElse, atElse, hc.like.keyword, hnext]
  · have hc' : c.here.keyword? ≠ some .elseWord := fun h => hw ⟨hlast, h⟩
    rw [not_atElse hc', not_atElse (hc.like.keyword ▸ hc')]

/-- One `else if` clause, from its first word on. -/
def elseIfClause (nested : Nested) : Parser (Option ElseIf) := do
  let start ← position
  let _ ← advance
  let _ ← advance
  let condition ← condition nested
  let body ← block nested
  return some ⟨condition, body, ← spanFrom start⟩

theorem elseIf_eq : elseIf nested s c =
    if (atElse c && (c.next?.map (·.keyword? == some .ifWord)).getD false) = true then
      elseIfClause nested s c
    else .ok none c := by
  rw [elseIf, isAtElse_bind, nextHas_bind, ite_apply]
  rfl

theorem elseIfClause_abreast (hn : nested.Abreast σ.places n nested') (hk : k < n) :
    Abreast σ (k + 1) (afterStep k) σ.Like (elseIfClause nested) (elseIfClause nested') := by
  refine position_abreast.bind fun i j hij => ?_
  refine advance_abreast.bind fun _ _ _ => advance_abreast.bind fun _ _ _ => ?_
  refine (condition_strict hn k hk).bind fun e e' he => ?_
  refine (block_lax (hn.mono (Nat.le_of_lt hk))).bind fun b b' hb => ?_
  refine (spanFrom_abreast hij).bind fun x x' hx => .pure ?_ (Nat.le_refl k)
  simp_all [Places.Like, Placed.move, ElseIf.mapSpans]

theorem elseIf_near (hn : nested.Abreast σ.places n nested') (hk : k < n)
    (hc : σ.Near (k + 1) c d) :
    Kept σ (afterStep k) σ.Like (elseIf nested s c) (elseIf nested' s d) ∨
      (σ.AtLast n c ∧ c.here.keyword? = some .elseWord) ∧ elseIf nested s c = .ok none c := by
  by_cases hw : σ.AtLast (k + 1) c ∧ c.here.keyword? = some .elseWord
  · refine .inr ⟨⟨hw.1.mono hk, hw.2⟩, ?_⟩
    rw [elseIf_eq, hw.1.not_next (by simp [σ.keyword_last]), Bool.and_false, if_neg (by decide)]
  · refine .inl ?_
    have htest : (atElse c && (c.next?.map (·.keyword? == some .ifWord)).getD false) =
        (atElse d && (d.next?.map (·.keyword? == some .ifWord)).getD false) := by
      rw [atElse_like hc hw]
      rcases hc.next_map (·.keyword? == some .ifWord) (fun h => by rw [h.keyword]) with
        hnext | ⟨hlast, -⟩
      · rw [hnext]
      · have hc' : d.here.keyword? ≠ some .elseWord := by
          rw [← hc.like.keyword]
          exact fun h => hw ⟨hlast, h⟩
        rw [not_atElse hc', Bool.false_and, Bool.false_and]
    rw [elseIf_eq, elseIf_eq, htest]
    split
    · exact (elseIfClause_abreast hn hk).near hc
    · exact .ok Places.like_none hc

theorem elseIf_away (hc : σ.Away (k + 1) c) :
    Gone σ (afterStep k) σ.Like (elseIf nested s c) := by
  rw [elseIf_eq, hc.not_next (by simp [σ.keyword_last]), Bool.and_false, if_neg (by decide)]
  exact .ok Places.like_none hc

theorem elseBlock_eq : elseBlock nested s c =
    if atElse c = true then
      (do
        let _ ← advance
        return some (← block nested) : Parser (Option Block)) s c
    else .ok none c := by
  rw [elseBlock, isAtElse_bind, ite_apply]
  rfl

/-- The block after an `else`. -/
theorem elseRest_abreast (hn : nested.Abreast σ.places n nested') :
    Abreast σ n (fun _ => n) σ.Like
      (do
        let _ ← advance
        return some (← block nested) : Parser (Option Block))
      (do
        let _ ← advance
        return some (← block nested') : Parser (Option Block)) :=
  advance_abreast.bind fun _ _ _ => (block_lax hn).bind fun _ _ hb =>
    .pure (Places.like_some.2 hb) (Nat.le_refl n)

/-- An `else` at the end of a list has lost its block. -/
theorem elseBlock_lost (nested : Nested) (hc : σ.AtLast n c)
    (hw : c.here.keyword? = some .elseWord) :
    ∃ e c', elseBlock nested s c = .error e c' ∧ σ.Lost e := by
  have helse : atElse c = true := by simp [atElse, hw, hc.next, σ.last_kind]
  have hk : c.advance.here.kind ≠ .openBrace := by
    intro hk
    rcases hc.past.kind with h | h <;> cases h.symm.trans hk
  refine ⟨_, c.advance, ?_, lost_of_away (x := .token .openBrace) hc.past⟩
  rw [elseBlock_eq, if_pos helse, advance_bind, block, bind_assoc, position_bind, bracketed]
  simp only [bind_assoc, token_bind, if_neg hk]

theorem elseBlock_abreast (hn : nested.Abreast σ.places n nested') :
    Abreast σ n (fun _ => n) σ.Like (elseBlock nested) (elseBlock nested') := by
  constructor
  · intro s c d hc
    by_cases hw : σ.AtLast n c ∧ c.here.keyword? = some .elseWord
    · obtain ⟨e, c', he, hlost⟩ := elseBlock_lost (s := s) nested hw.1 hw.2
      exact .gone (he ▸ .error hlost)
    · rw [elseBlock_eq, elseBlock_eq, atElse_like hc hw]
      split
      · exact (elseRest_abreast hn).near hc
      · exact .ok Places.like_none hc
  · intro s c hc
    rw [elseBlock_eq, not_atElse (by simp [hc.keyword]), if_neg (by decide)]
    exact .ok Places.like_none hc

/-- The clauses after the first block of an `if`, of which the last word of a list may be lost. -/
theorem elses_abreast (hn : nested.Abreast σ.places n nested') {α : Type} [Placed α]
    {f g : List ElseIf → Option Block → Parser α}
    (h : ∀ es es' b b', σ.Like es es' → σ.Like b b' →
      Abreast σ n (fun _ => n) σ.Like (f es b) (g es' b')) :
    Abreast σ n (fun _ => n) σ.Like
      (do
        let elseIfs ← collect (elseIf nested)
        let elseBody ← elseBlock nested
        f elseIfs elseBody)
      (do
        let elseIfs ← collect (elseIf nested')
        let elseBody ← elseBlock nested'
        g elseIfs elseBody) := by
  have hrest : ∀ es es', σ.Like es es' → Abreast σ n (fun _ => n) σ.Like
      (elseBlock nested >>= f es) (elseBlock nested' >>= g es') :=
    fun es es' he => (elseBlock_abreast hn).bind fun b b' hb => h es es' b b' he hb
  constructor
  · intro s c d hc
    rcases collect_near (fun k hk c d => elseIf_near hn hk) (fun k hk c => elseIf_away) hc with
      hkept | ⟨es, c', ⟨hlast, hw⟩, hes⟩
    · exact kept_then hkept hrest
    · obtain ⟨e, c1, he, hlost⟩ := elseBlock_lost (s := s) nested hlast hw
      refine .gone ?_
      rw [bind_of_ok hes, bind_apply, he]
      exact .error hlost
  · intro s c hc
    refine gone_bind (collectWithin_gone (fun k _ _ => elseIf_away) hc (Nat.le_refl _)) ?_
    exact fun es es' c' he ha => (hrest es es' he).away ha

theorem ifStmt_abreast (hn : nested.Abreast σ.places n nested') :
    Abreast σ (n + 1) (fun _ => n) σ.Like (ifStmt nested) (ifStmt nested') := by
  refine position_abreast.bind fun i j hij => (keyword_abreast .ifWord).bind fun _ _ _ => ?_
  refine (condition_abreast hn).bind fun e e' he => (block_lax hn).bind fun b b' hb => ?_
  refine elses_abreast hn fun es es' o o' hes ho => ?_
  refine (spanFrom_abreast hij).bind fun x x' hx => .pure ?_ (Nat.le_refl n)
  simp_all [Places.Like, Placed.move, IfStmt.mapSpans]

end Else

theorem bindingKind_abreast : Abreast σ n (fun _ => n) Eq bindingKind bindingKind := by
  refine keyword?_abreast.bind ?_
  rintro o _ rfl
  split
  · exact advance_abreast.bind fun _ _ _ => .pure rfl (Nat.le_refl n)
  · exact advance_abreast.bind fun _ _ _ => .pure rfl (Nat.le_refl n)
  · exact unexpected_abreast _

theorem varDecl_abreast (hn : nested.Abreast σ.places n nested') :
    Abreast σ (n + 1) (fun _ => n) σ.Like (varDecl nested) (varDecl nested') := by
  refine position_abreast.bind fun i j hij => bindingKind_abreast.bind ?_
  rintro binding _ rfl
  refine ident_abreast.bind fun x x' hx => annotation_abreast.bind fun t t' ht => ?_
  refine (Abreast.lax fun _ _ => token_abreast (by decide)).bind fun _ _ _ => ?_
  refine ((hn.value rfl .group).lax (Nat.le_refl n)).bind fun e e' he => ?_
  refine (spanFrom_abreast hij).bind fun y y' hy => .pure ?_ (Nat.le_refl n)
  simp_all [Places.Like, Placed.move, VarDecl.mapSpans]

theorem initDecls_abreast (hn : nested.Abreast σ.places n nested') :
    Abreast σ n (fun _ => n) σ.Like (initDecls nested) (initDecls nested') := by
  refine collect_abreast fun k hk => keyword?_abreast.bind ?_
  rintro o _ rfl
  refine .ite rfl (fun _ => ?_) fun _ => .pure Places.like_none (Nat.le_refl _)
  refine (varDecl_abreast (hn.mono (Nat.le_of_lt hk))).inHead.bind fun d d' hd => ?_
  refine (Abreast.lax fun _ _ => token_abreast (by decide)).bind fun _ _ _ => ?_
  exact .pure (Places.like_some.2 hd) (Nat.le_refl k)

section For

theorem iterHead_abreast (hn : nested.Abreast σ.places n nested') :
    Abreast σ n (fun _ => n) σ.Like (iterHead nested) (iterHead nested') := by
  have hident : Abreast σ n (fun _ => n) σ.Like ident ident := Abreast.lax fun _ _ => ident_abreast
  have hrest : ∀ o o' y y', σ.Like o o' → σ.Like y y' → Abreast σ n (fun _ => n) σ.Like
      (do
        let _ ← keyword .inWord
        let iterable ← inHead (nested.value .group)
        return .iterate o y iterable : Parser ForHead)
      (do
        let _ ← keyword .inWord
        let iterable ← inHead (nested'.value .group)
        return .iterate o' y' iterable : Parser ForHead) := by
    intro o o' y y' ho hy
    refine (Abreast.lax fun _ _ => keyword_abreast .inWord).bind fun _ _ _ => ?_
    refine ((hn.value rfl .group).lax (Nat.le_refl n)).inHead.bind fun e e' he => ?_
    refine .pure ?_ (Nat.le_refl n)
    simp_all [Places.Like, Placed.move, ForHead.mapSpans]
  refine hident.bind fun x x' hx => (skip_abreast .comma).bind fun b b' hb => .ite hb ?_ ?_
  · exact fun _ => hident.bind fun y y' hy => hrest _ _ _ _ (Places.like_some.2 hx) hy
  · exact fun _ => hrest _ _ _ _ Places.like_none hx

theorem countedHead_abreast (hn : nested.Abreast σ.places n nested') :
    Abreast σ n (fun _ => n) σ.Like (countedHead nested) (countedHead nested') := by
  refine (initDecls_abreast hn).bind fun ds ds' hds => ?_
  refine (isAt_abreast .openBrace).bind fun b b' hb => .ite hb (fun _ => ?_) fun _ => ?_
  · refine .pure ?_ (Nat.le_refl n)
    simp_all [Places.Like, Placed.move, ForHead.mapSpans]
  · refine (condition_abreast hn).bind fun e e' he => .pure ?_ (Nat.le_refl n)
    simp_all [Places.Like, Placed.move, ForHead.mapSpans]

theorem collect_of_none {α : Type} {item : Parser (Option α)} (h : item s c = .ok none c) :
    collect item s c = .ok [] c := by
  rw [collect, Cursor.rest, collectWithin, bind_of_ok h]
  rfl

/-- A last word that begins no binding is read as the condition of a loop. -/
theorem countedHead_gone (hn : nested.Abreast σ.places n nested') (hk : k < n)
    (hc : σ.AtLast (k + 1) c) (hi : c.here.kind = .ident)
    (hb : isBindingWord c.here.keyword? = false)
    (hr : c.here.Reserved →
      σ.Lost ⟨.unexpectedToken .expression c.here.describe, c.here.span⟩) :
    Gone σ (fun _ => n) σ.Like (countedHead nested s c) := by
  have hnone : initDecls nested s c = .ok [] c := by
    apply collect_of_none
    rw [keyword?_bind, hb]
    rfl
  rw [countedHead, bind_of_ok hnone, isAt_bind, hi]
  refine gone_bind (hn.word rfl .group k hk hc hi hr) fun e e' c' he ha => ?_
  refine .ok (b := .counted [] (some e')) ?_ (ha.mono (Nat.le_of_lt hk))
  simp_all [Places.Like, Placed.move, ForHead.mapSpans]

/-- The token before the cursor is the first word of a loop. -/
def AfterFor (σ : Seam) (c : Cursor) : Prop :=
  ∃ ts loop, σ.start.Takes (ts ++ [loop]) c ∧ loop.keyword? = some .forWord

theorem afterFor_advance (hc : σ.Reaches c) (hw : c.here.keyword? = some .forWord) :
    AfterFor σ c.advance := by
  have hk : c.here.kind ≠ .endOfText := by
    rw [Token.kind_of_keyword? hw]
    decide
  have htake := hc.ended.takes hk
  obtain ⟨ts, hstart⟩ := hc
  exact ⟨ts, c.here, hstart.trans htake, hw⟩

/-- Whether a loop has a variable is told alike, unless a list ends after what turns out to be one
where the other list goes on. -/
theorem atIterHead_like (hc : σ.Near n c d) (hf : AfterFor σ c) :
    atIterHead c = atIterHead d ∨
      σ.AtLast n c ∧ atIterHead c = false ∧ c.here.kind = .ident ∧
        LoopVariable σ.tokens σ.more c.here := by
  by_cases heq : atIterHead c = atIterHead d
  · exact .inl heq
  have hdef : ∀ c : Cursor, atIterHead c = (c.here.kind == .ident &&
      !isBindingWord c.here.keyword? &&
      (c.next?.map fun next => next.kind == .comma || next.keyword? == some .inWord).getD false) :=
    fun _ => rfl
  rcases hc.next_map (fun next => next.kind == .comma || next.keyword? == some .inWord)
    (fun h => by rw [h.kind, h.keyword]) with hnext | ⟨hlast, hahead⟩
  · exact absurd (by rw [hdef, hdef, hc.like.kind, hc.like.keyword, hnext]) heq
  have hno : atIterHead c = false := by
    rw [hdef, hlast.not_next (by simp [σ.last_kind, σ.keyword_last]), Bool.and_false]
  have hyes : atIterHead d = true := by
    rw [hno] at heq
    simpa using Ne.symm heq
  rw [hdef, Bool.and_eq_true, Bool.and_eq_true, ← hc.like.kind, ← hc.like.keyword, Cursor.next?,
    hahead] at hyes
  obtain ⟨⟨hident, hfree⟩, hnext⟩ := hyes
  obtain ⟨ts, loop, hk, hloop⟩ := hf
  have htokens : σ.tokens = ts ++ [loop] ++ [c.here] := tokens_of_takes hk hlast.rest
  rw [List.append_assoc] at htokens
  refine .inr ⟨hlast, hno, by simpa using hident, ⟨ts, loop, htokens, hloop⟩,
    by simpa using hfree, ?_⟩
  · cases hm : σ.more.head? with
    | none => simp [hm] at hnext
    | some u => exact ⟨u, rfl, by simpa [hm] using hnext⟩

/-- The head of a loop and what follows it. -/
def loopHead {α : Type} (nested : Nested) (f : ForHead → Parser α) : Parser α := do
  if ← isAtIterHead then
    let head ← iterHead nested
    f head
  else
    let head ← countedHead nested
    f head

theorem loopHead_near (hn : nested.Abreast σ.places n nested') (hc : σ.Near n c d)
    (hf : AfterFor σ c) {α : Type} [Placed α] {f g : ForHead → Parser α}
    (h : ∀ x y, σ.Like x y → Abreast σ n (fun _ => n) σ.Like (f x) (g y)) :
    Kept σ (fun _ => n) σ.Like (loopHead nested f s c) (loopHead nested' g s d) := by
  rw [loopHead, loopHead, isAtIterHead_bind, isAtIterHead_bind]
  rcases atIterHead_like hc hf with heq | ⟨hlast, hno, hident, hloop⟩
  · rw [heq, ite_apply, ite_apply]
    split
    · exact ((iterHead_abreast hn).bind h).near hc
    · exact ((countedHead_abreast hn).bind h).near hc
  · rw [hno]
    refine .gone (gone_bind (countedHead_gone hn hlast.light hlast.tight hident hloop.free ?_) ?_)
    · exact fun hr => ⟨hlast.cut, .inr (.word hloop hr)⟩
    · exact fun x y c' hxy ha => (h x y hxy).away ha

theorem loopHead_away (hn : nested.Abreast σ.places n nested') (hc : σ.Away n c) {α : Type}
    [Placed α] {f g : ForHead → Parser α}
    (h : ∀ x y, σ.Like x y → Abreast σ n (fun _ => n) σ.Like (f x) (g y)) :
    Gone σ (fun _ => n) σ.Like (loopHead nested f s c) := by
  rw [loopHead, isAtIterHead_bind, ite_apply]
  split
  · exact ((iterHead_abreast hn).bind h).away hc
  · exact ((countedHead_abreast hn).bind h).away hc

theorem forStmt_abreast (hn : nested.Abreast σ.places n nested') :
    Abreast σ (n + 1) (fun _ => n) σ.Like (forStmt nested) (forStmt nested') := by
  have hbody : ∀ {i j : Nat}, σ.places.left i = σ.places.right j → ∀ x y, σ.Like x y →
      Abreast σ n (fun _ => n) σ.Like
        (do
          let body ← block nested
          return ⟨x, body, ← spanFrom i⟩ : Parser ForStmt)
        (do
          let body ← block nested'
          return ⟨y, body, ← spanFrom j⟩ : Parser ForStmt) := by
    intro i j hij x y hxy
    refine (block_lax hn).bind fun b b' hb => ?_
    refine (spanFrom_abreast hij).bind fun z z' hz => .pure ?_ (Nat.le_refl n)
    simp_all [Places.Like, Placed.move, ForStmt.mapSpans]
  constructor
  · intro s c d hc
    rw [forStmt, forStmt, position_bind, position_bind, keyword_bind, keyword_bind,
      ← hc.like.keyword]
    split
    · rename_i hw
      have hk : c.here.kind ≠ .endOfText := by
        rw [Token.kind_of_keyword? hw]
        decide
      rcases hc.advance hk with hr | ⟨-, ha⟩
      · exact loopHead_near hn hr (afterFor_advance hc.reaches hw) (hbody hc.like.start)
      · exact .gone (loopHead_away hn ha (hbody hc.like.start))
    · exact (unexpected_abreast _).near (s := s) hc
  · intro s c hc
    rw [forStmt, position_bind, keyword_bind, hc.keyword]
    exact (unexpected_abreast (.keyword .forWord)).away (s := s) hc

end For

section When

theorem caseBody_abreast (hn : nested.Abreast σ.places n nested') :
    Abreast σ n (fun _ => n) σ.Like (caseBody nested) (caseBody nested') := by
  refine (isAt_abreast .arrow).bind fun b b' hb => .ite hb (fun _ => ?_) fun _ => ?_
  · refine advance_abreast.bind fun _ _ _ => ?_
    refine ((hn.statement rfl).lax (Nat.le_refl n)).bind fun st st' hst => .pure ?_ (Nat.le_refl n)
    simp_all [Places.Like, Placed.move, CaseBody.mapSpans]
  · refine (isAt_abreast .openBrace).bind fun b b' hb => .ite hb (fun _ => ?_) fun _ => ?_
    · refine (block_lax hn).bind fun b b' hb => .pure ?_ (Nat.le_refl n)
      simp_all [Places.Like, Placed.move, CaseBody.mapSpans]
    · exact unexpected_abreast _

theorem whenCase_abreast (hn : nested.Abreast σ.places n nested') :
    Abreast σ (n + 1) (fun _ => n) σ.Like (whenCase nested) (whenCase nested') := by
  refine position_abreast.bind fun i j hij => (keyword_abreast .isWord).bind fun _ _ _ => ?_
  refine (((hn.expr rfl .pair).lax (Nat.le_refl n)).within _ _).bind fun e e' he => ?_
  refine (caseBody_abreast hn).bind fun b b' hb => ?_
  refine (spanFrom_abreast hij).bind fun x x' hx => .pure ?_ (Nat.le_refl n)
  simp_all [Places.Like, Placed.move, WhenCase.mapSpans]

theorem whenCases_abreast (hn : nested.Abreast σ.places n nested') :
    Abreast σ n (fun _ => n) σ.Like (whenCases nested) (whenCases nested') := by
  refine collect_abreast fun k hk => (isAt_abreast .closeBrace).bind ?_
  rintro a _ rfl
  refine (isAtKeyword_abreast .elseWord).bind ?_
  rintro b _ rfl
  refine .ite rfl (fun _ => .pure Places.like_none (Nat.le_refl _)) fun _ => ?_
  refine (whenCase_abreast (hn.mono (Nat.le_of_lt hk))).bind fun x x' hx => ?_
  have hdone : Abreast σ k (afterStep k) σ.Like (Pure.pure (some x)) (Pure.pure (some x')) :=
    .pure (Places.like_some.2 hx) (Nat.le_refl k)
  refine (skip_abreast .semicolon).bind fun b b' hb => .ite hb (fun _ => hdone) fun _ => ?_
  refine (isAt_abreast .closeBrace).bind fun b b' hb => .ite hb (fun _ => hdone) fun _ => ?_
  refine isAtLineStart_abreast.bind fun b b' hb => .ite hb (fun _ => hdone) fun _ => ?_
  exact unexpected_abreast _

theorem elseCase_abreast (hn : nested.Abreast σ.places n nested') :
    Abreast σ n (fun _ => n) σ.Like (elseCase nested) (elseCase nested') := by
  refine (isAtKeyword_abreast .elseWord).bind fun b b' hb => .ite hb (fun _ => ?_) fun _ => ?_
  · refine advance_abreast.bind fun _ _ _ => (caseBody_abreast hn).bind fun x x' hx => ?_
    refine (skip_abreast .semicolon).bind fun _ _ _ => ?_
    refine (isAt_abreast .closeBrace).bind fun b b' hb => .ite hb (fun _ => ?_) fun _ => ?_
    · exact .pure (Places.like_some.2 hx) (Nat.le_refl n)
    · exact unexpected_abreast _
  · exact .pure Places.like_none (Nat.le_refl n)

theorem whenStmt_abreast (hn : nested.Abreast σ.places n nested') :
    Abreast σ (n + 1) (fun _ => n) σ.Like (whenStmt nested) (whenStmt nested') := by
  refine position_abreast.bind fun i j hij => (keyword_abreast .whenWord).bind fun _ _ _ => ?_
  refine (initDecls_abreast hn).bind fun ds ds' hds => ?_
  refine (condition_abreast hn).bind fun e e' he => ?_
  refine (Abreast.lax fun _ _ => token_abreast (by decide)).bind fun _ _ _ => ?_
  refine ((whenCases_abreast hn).within _ _).bind fun cs cs' hcs => ?_
  refine ((elseCase_abreast hn).within _ _).bind fun o o' ho => ?_
  refine (Abreast.lax fun _ _ => token_abreast (by decide)).bind fun _ _ _ => ?_
  refine (spanFrom_abreast hij).bind fun x x' hx => .pure ?_ (Nat.le_refl n)
  simp_all [Places.Like, Placed.move, WhenStmt.mapSpans]

end When

theorem value_abreast (hn : nested.Abreast σ.places n nested') (min : Strength) :
    Abreast σ (n + 1) (fun _ => n) σ.Like (value nested min) (value nested' min) := by
  refine position_abreast.bind fun i j hij => keyword?_abreast.bind ?_
  rintro o _ rfl
  split
  · refine (ifStmt_abreast hn).bind fun x x' hx => ?_
    refine (spanFrom_abreast hij).bind fun y y' hy => .pure ?_ (Nat.le_refl n)
    simp_all [Places.Like, Placed.move, Expr.mapSpans, ExprKind.mapSpans]
  · refine (whenStmt_abreast hn).bind fun x x' hx => ?_
    refine (spanFrom_abreast hij).bind fun y y' hy => .pure ?_ (Nat.le_refl n)
    simp_all [Places.Like, Placed.move, Expr.mapSpans, ExprKind.mapSpans]
  · exact expr_abreast hn min

end Script.Parser
