import Script.Proofs.Abreast.Control
import Script.Proofs.Moved.Statement

/-!
The parsers of declarations and statements side by side, and with them those of every level of
nesting. A soft keyword introduces a statement only if the token after it says so, so at the end of a
list it is read as a name; and an entry of a node can only be seen to be none when it is over.
-/
namespace Script

theorem Places.Like.isPair {P : Places} {e e' : Expr} (h : P.Like e e') :
    Parser.isPair e = Parser.isPair e' := by
  rw [← Parser.isPair_mapSpans (Span.move P.left) e, ← Parser.isPair_mapSpans (Span.move P.right) e']
  exact congrArg Parser.isPair h

namespace Parser

open Outcome Seam

variable {σ : Seam} {n k : Nat} {nested nested' : Nested} {s : Surroundings} {c d : Cursor}

section Declarations

theorem useSubs_abreast : Abreast σ n (fun _ => n) σ.Like useSubs useSubs := by
  have hname : Abreast σ n (fun _ => n) σ.Like name name := Abreast.lax fun _ _ => name_abreast
  have hmore : Abreast σ n (fun _ => n) σ.Like
      (collect do
        if ← skip .comma then return some (← name) else return none)
      (collect do
        if ← skip .comma then return some (← name) else return none) := by
    refine collect_abreast fun k _ => (skip_abreast .comma).bind fun b b' hb => .ite hb ?_ ?_
    · exact fun _ => name_abreast.bind fun x y h => .pure (Places.like_some.2 h) (Nat.le_refl k)
    · exact fun _ => .pure Places.like_none (Nat.le_refl _)
  refine here_abreast.bind fun t u h => .ite (h.continues .colon) (fun _ => ?_) fun _ => ?_
  · refine advance_abreast.bind fun _ _ _ => hname.bind fun x y hxy => ?_
    exact hmore.bind fun xs ys hxs => .pure (Places.like_cons.2 ⟨hxy, hxs⟩) (Nat.le_refl n)
  · exact .pure Places.like_nil (Nat.le_refl n)

theorem useDecl_abreast : Abreast σ (n + 1) (fun _ => n) σ.Like useDecl useDecl := by
  refine position_abreast.bind fun i j hij => (keyword_abreast .useWord).bind fun _ _ _ => ?_
  refine (Abreast.lax fun _ _ => name_abreast).bind fun x y hxy => ?_
  refine useSubs_abreast.bind fun xs ys hxs => ?_
  refine (spanFrom_abreast hij).bind fun z z' hz => .pure ?_ (Nat.le_refl n)
  simp_all [Places.Like, Placed.move, UseDecl.mapSpans]

theorem importArgs_abreast (hn : nested.Abreast σ.places n nested') :
    Abreast σ n (fun _ => n) σ.Like (importArgs nested) (importArgs nested') := by
  refine here_abreast.bind fun t u h => .ite (h.continues .openParen) (fun _ => ?_) fun _ => ?_
  · refine (Abreast.lax fun k hk => arguments_abreast (hn.mono (Nat.le_of_lt hk))).bind ?_
    exact fun xs ys hxs => .pure (Places.like_some.2 hxs) (Nat.le_refl n)
  · exact .pure Places.like_none (Nat.le_refl n)

theorem importDecl_abreast (hn : nested.Abreast σ.places n nested') :
    Abreast σ (n + 1) (fun _ => n) σ.Like (importDecl nested) (importDecl nested') := by
  refine position_abreast.bind fun i j hij => (keyword_abreast .importWord).bind fun _ _ _ => ?_
  refine (Abreast.lax fun _ _ => name_abreast).bind fun x y hxy => ?_
  refine (importArgs_abreast hn).bind fun xs ys hxs => ?_
  refine (spanFrom_abreast hij).bind fun z z' hz => .pure ?_ (Nat.le_refl n)
  cases xs <;> cases ys <;> simp_all [Places.Like, Placed.move, ImportDecl.mapSpans]

theorem param_strict : Strict σ n param param := by
  intro k _
  refine position_abreast.bind fun i j hij => ident_abreast.bind fun x y hxy => ?_
  refine annotation_abreast.bind fun t t' ht => ?_
  refine (spanFrom_abreast hij).bind fun z z' hz => .pure ?_ (Nat.le_refl k)
  simp_all [Places.Like, Placed.move, Param.mapSpans]

theorem property_strict : Strict σ n property property := by
  intro k _
  refine position_abreast.bind fun i j hij => name_abreast.bind fun x y hxy => ?_
  refine annotation_abreast.bind fun t t' ht => ?_
  refine (spanFrom_abreast hij).bind fun z z' hz => .pure ?_ (Nat.le_refl k)
  simp_all [Places.Like, Placed.move, Property.mapSpans]

theorem fnBody_abreast (hn : nested.Abreast σ.places n nested') :
    Abreast σ n (fun _ => n) σ.Like (fnBody nested) (fnBody nested') := by
  refine (skip_abreast .assign).bind fun b b' hb => .ite hb (fun _ => ?_) fun _ => ?_
  · refine ((hn.expr rfl .group).lax (Nat.le_refl n)).bind fun e e' he => .pure ?_ (Nat.le_refl n)
    simp_all [Places.Like, Placed.move, FnBody.mapSpans]
  · refine (block_lax hn).bind fun b b' hb => .pure ?_ (Nat.le_refl n)
    simp_all [Places.Like, Placed.move, FnBody.mapSpans]

theorem fnDecl_abreast (hn : nested.Abreast σ.places n nested') :
    Abreast σ (n + 1) (fun _ => n) σ.Like (fnDecl nested) (fnDecl nested') := by
  refine position_abreast.bind fun i j hij => (keyword_abreast .fnWord).bind fun _ _ _ => ?_
  refine (Abreast.lax fun _ _ => name_abreast).bind fun x y hxy => ?_
  refine (Abreast.lax fun _ _ => bracketed_abreast (by decide) (by decide) param_strict _).bind ?_
  refine fun ps qs hps => annotation_abreast.bind fun t t' ht => ?_
  refine (fnBody_abreast hn).bind fun b b' hb => ?_
  refine (spanFrom_abreast hij).bind fun z z' hz => .pure ?_ (Nat.le_refl n)
  simp_all [Places.Like, Placed.move, FnDecl.mapSpans]

/-- An expression that breaks off where the first list does stands right before its end. -/
theorem late_entry {e : Expr} {c' : Cursor} (hn : nested.Abreast σ.places n nested')
    (hc : σ.Reaches c) (he : nested.expr .group s c = .ok e c') (ha : σ.Away k c') :
    σ.Late ⟨.invalidNodeEntry, e.span⟩ := by
  obtain ⟨rules, hsound, hspanning⟩ := hn.spanning
  obtain ⟨ts, hk, w, -⟩ := hsound.expr .group hc.ended he
  obtain ⟨us, hstart⟩ := hc
  have hk' := hstart.trans hk
  have hne := (hspanning.opening.expr w).begin.ne_nil
  obtain ⟨vs, t, rfl⟩ : ∃ vs t, ts = vs ++ [t] := ⟨_, _, (List.dropLast_concat_getLast hne).symm⟩
  obtain ⟨u, hu⟩ : ∃ u, (vs ++ [t]).head? = some u := ⟨_, List.head?_eq_some_head hne⟩
  have hstop : ∀ {ws}, σ.tokens = us ++ (vs ++ [t]) ++ ws → e.span.stop = t.stop := by
    intro ws hws
    have hsorted := σ.tokens_sorted
    rw [hws, List.append_assoc] at hsorted
    have hts := (List.pairwise_append.1 (List.pairwise_append.1 hsorted).2.1).1
    rw [hspanning.expr w hts, Token.Sorted.spanOf_eq hts hu List.getLast?_concat]
  refine ⟨ha.cut, us ++ vs, t, ?_⟩
  rcases ha.rest with hrest | ⟨hdot, hrest, hmore⟩
  · have htokens : σ.tokens = us ++ (vs ++ [t]) ++ [] := tokens_of_takes hk' hrest
    exact ⟨hstop htokens, .inl (by rw [htokens]; simp)⟩
  · have htokens : σ.tokens = us ++ (vs ++ [t]) ++ [c'.here] := tokens_of_takes hk' hrest
    exact ⟨hstop htokens, .inr ⟨c'.here, by rw [htokens]; simp, continuesWith_kind hdot, hmore⟩⟩

/-- An entry of a node that has been read as an expression. -/
def pairEntry (e : Expr) : Parser Statement :=
  if isPair e then return ⟨.expr e, e.span⟩ else fail .invalidNodeEntry e.span

theorem pairEntry_apply (e : Expr) : pairEntry e s c =
    if isPair e = true then .ok ⟨.expr e, e.span⟩ c else .error ⟨.invalidNodeEntry, e.span⟩ c := by
  rw [pairEntry, ite_apply]
  rfl

theorem like_entry {e e' : Expr} (h : σ.Like e e') :
    σ.Like (⟨.expr e, e.span⟩ : Statement) ⟨.expr e', e'.span⟩ := by
  have hspan := h.exprSpan
  simp_all [Places.Like, Placed.move, Statement.mapSpans_expr]

/-- An entry that was lost is no pair yet. The other entry is the pair that it begins, or no entry
either. -/
theorem pairEntry_lost (hn : nested.Abreast σ.places n nested') (hk : k < n)
    (hc : σ.Near (k + 1) c d) (hg : Gone σ (fun _ => k) σ.Like (nested.expr .group s c)) :
    Kept σ (fun _ => k) σ.Like ((nested.expr .group >>= pairEntry) s c)
      ((nested'.expr .group >>= pairEntry) s d) := by
  rw [bind_apply, bind_apply]
  cases he : nested.expr .group s c with
  | error x c' =>
    rw [he] at hg
    cases hg with
    | error hl => exact .gone (.error hl)
  | ok e c' =>
    rw [he] at hg
    cases hg with
    | @ok _ b _ heb ha =>
      dsimp only
      rw [pairEntry_apply]
      by_cases hp : isPair e = true
      · rw [if_pos hp]
        exact .gone (.ok (like_entry heb) ha)
      · rw [if_neg hp]
        have hlate := late_entry hn hc.reaches he ha
        cases he' : nested'.expr .group s d with
        | error x' d' => exact .late hlate
        | ok e' d' =>
          dsimp only
          rw [pairEntry_apply]
          split
          · rename_i hp'
            have hcolon := hn.key rfl .group k hk hc he (by simpa using hp) he' hp'
            exact .gone (.error ⟨hlate.cut, .inr (.entry hlate.stops hcolon)⟩)
          · exact .late hlate

theorem pairEntry_abreast (hn : nested.Abreast σ.places n nested') (hk : k < n) :
    Abreast σ (k + 1) (fun _ => k) σ.Like (nested.expr .group >>= pairEntry)
      (nested'.expr .group >>= pairEntry) := by
  have hexpr := hn.expr rfl .group k hk
  constructor
  · intro s c d hc
    by_cases hg : Gone σ (fun _ => k) σ.Like (nested.expr .group s c)
    · exact pairEntry_lost hn hk hc hg
    · refine kept_bind (hexpr.near hc) (fun e e' c' d' he hc' => ?_) fun h => absurd h hg
      rw [pairEntry_apply, pairEntry_apply, he.isPair]
      split
      · exact .ok (like_entry he) hc'
      · exact .error (Places.like_error.2 ⟨rfl, he.exprSpan⟩)
  · intro s c hc
    have hg := hexpr.away (s := s) hc
    rw [bind_apply]
    cases he : nested.expr .group s c with
    | ok e c' => exact absurd he (hn.silent rfl .group k hk hc)
    | error x c' =>
      rw [he] at hg
      cases hg with
      | error hl => exact .error hl

theorem nodeEntry_strict (hn : nested.Abreast σ.places n nested') :
    Strict σ n (nodeEntry nested) (nodeEntry nested') := by
  intro k hk
  refine position_abreast.bind fun i j hij => (isAtKeyword_abreast .ifWord).bind fun b b' hb => ?_
  refine .ite hb (fun _ => ?_) fun _ => pairEntry_abreast hn hk
  refine (ifStmt_abreast (hn.mono (Nat.le_of_lt hk))).bind fun x x' hx => ?_
  refine (spanFrom_abreast hij).bind fun y y' hy => .pure ?_ (Nat.le_refl k)
  simp_all [Places.Like, Placed.move, Statement.mapSpans_ifStmt]

theorem nodeBody_abreast (hn : nested.Abreast σ.places n nested') :
    Abreast σ n (fun _ => n) σ.Like (nodeBody nested) (nodeBody nested') := by
  refine here_abreast.bind fun t u h => .ite (h.continues .openBrace) (fun _ => ?_) fun _ => ?_
  · refine (Abreast.lax fun k hk => bracketed_abreast (by decide) (by decide)
      (nodeEntry_strict (hn.mono (Nat.le_of_lt hk))) _).bind fun xs ys hxs => ?_
    exact .pure (Places.like_some.2 hxs) (Nat.le_refl n)
  · exact .pure Places.like_none (Nat.le_refl n)

theorem nodeDecl_abreast (hn : nested.Abreast σ.places n nested') :
    Abreast σ (n + 1) (fun _ => n) σ.Like (nodeDecl nested) (nodeDecl nested') := by
  refine position_abreast.bind fun i j hij => (keyword_abreast .nodeWord).bind fun _ _ _ => ?_
  refine (Abreast.lax fun _ _ => name_abreast).bind fun x y hxy => ?_
  refine (Abreast.lax fun _ _ =>
    bracketed_abreast (by decide) (by decide) property_strict _).bind fun ps qs hps => ?_
  refine (nodeBody_abreast hn).bind fun xs ys hxs => ?_
  refine (spanFrom_abreast hij).bind fun z z' hz => .pure ?_ (Nat.le_refl n)
  cases xs <;> cases ys <;> simp_all [Places.Like, Placed.move, NodeDecl.mapSpans]

theorem fieldDecl_strict : Strict σ n fieldDecl fieldDecl := by
  intro k _
  refine position_abreast.bind fun i j hij => ident_abreast.bind fun x y hxy => ?_
  refine (Abreast.lax fun _ _ => token_abreast (by decide)).bind fun _ _ _ => ?_
  refine typeRef_abreast.bind fun t t' ht => ?_
  refine (spanFrom_abreast hij).bind fun z z' hz => .pure ?_ (Nat.le_refl k)
  simp_all [Places.Like, Placed.move, FieldDecl.mapSpans]

theorem typeDecl_abreast : Abreast σ (n + 1) (fun _ => n) σ.Like typeDecl typeDecl := by
  refine position_abreast.bind fun i j hij => (keyword_abreast .typeWord).bind fun _ _ _ => ?_
  refine (Abreast.lax fun _ _ => ident_abreast).bind fun x y hxy => ?_
  refine (Abreast.lax fun _ _ =>
    bracketed_abreast (by decide) (by decide) fieldDecl_strict _).bind fun fs gs hfs => ?_
  refine (spanFrom_abreast hij).bind fun z z' hz => .pure ?_ (Nat.le_refl n)
  simp_all [Places.Like, Placed.move, TypeDecl.mapSpans]

theorem enumMember_strict (hn : nested.Abreast σ.places n nested') :
    Strict σ n (enumMember nested) (enumMember nested') := by
  intro k hk
  refine position_abreast.bind fun i j hij => ident_abreast.bind fun x y hxy => ?_
  refine (skip_abreast .assign).bind fun b b' hb => .ite hb (fun _ => ?_) fun _ => ?_
  · refine ((hn.expr rfl .group).lax (Nat.le_of_lt hk)).bind fun e e' he => ?_
    refine (spanFrom_abreast hij).bind fun z z' hz => .pure ?_ (Nat.le_refl k)
    simp_all [Places.Like, Placed.move, EnumMember.mapSpans]
  · refine (spanFrom_abreast hij).bind fun z z' hz => .pure ?_ (Nat.le_refl k)
    simp_all [Places.Like, Placed.move, EnumMember.mapSpans]

theorem enumDecl_abreast (hn : nested.Abreast σ.places n nested') :
    Abreast σ (n + 1) (fun _ => n) σ.Like (enumDecl nested) (enumDecl nested') := by
  refine position_abreast.bind fun i j hij => (keyword_abreast .enumWord).bind fun _ _ _ => ?_
  refine (Abreast.lax fun _ _ => ident_abreast).bind fun x y hxy => ?_
  refine (Abreast.lax fun k hk => bracketed_abreast (by decide) (by decide)
    (enumMember_strict (hn.mono (Nat.le_of_lt hk))) _).bind fun ms ls hms => ?_
  refine (spanFrom_abreast hij).bind fun z z' hz => .pure ?_ (Nat.le_refl n)
  simp_all [Places.Like, Placed.move, EnumDecl.mapSpans]

end Declarations

section Statements

/-- An assignment whose target has been read. -/
def assignTo (nested : Nested) (e : Expr) : Parser StatementKind :=
  match e.kind with
  | .name target => do
    let _ ← advance
    return .assign target (← nested.value .group)
  | _ => fail .invalidAssignTarget e.span

theorem assignTo_other {e : Expr} (h : ∀ x, e.kind ≠ .name x) :
    assignTo nested e s c = .error ⟨.invalidAssignTarget, e.span⟩ c := by
  obtain ⟨kind, span⟩ := e
  cases kind with
  | name x => exact absurd rfl (h x)
  | _ => rfl

theorem assignTo_near (hn : nested.Abreast σ.places n nested') {e e' : Expr} (he : σ.Like e e')
    (hc : σ.Near n c d) :
    Kept σ (fun _ => n) σ.Like (assignTo nested e s c) (assignTo nested' e' s d) := by
  obtain ⟨x, y, hx, hy, hxy⟩ | ⟨hx, hy⟩ := he.name_cases
  · have hvalue : Abreast σ n (fun _ => n) σ.Like
        (do
          let _ ← advance
          return .assign x (← nested.value .group) : Parser StatementKind)
        (do
          let _ ← advance
          return .assign y (← nested'.value .group) : Parser StatementKind) := by
      refine advance_abreast.bind fun _ _ _ => ?_
      refine ((hn.value rfl .group).lax (Nat.le_refl n)).bind fun v v' hv => .pure ?_ (Nat.le_refl n)
      simp_all [Places.Like, Placed.move, StatementKind.mapSpans]
    simp only [assignTo, hx, hy]
    exact hvalue.near hc
  · rw [assignTo_other hx, assignTo_other hy]
    exact .error (Places.like_error.2 ⟨rfl, he.exprSpan⟩)

/-- What follows the expression at the start of a statement. -/
theorem assigned_abreast (hn : nested.Abreast σ.places n nested') {e e' : Expr}
    (he : σ.Like e e') : Abreast σ n (fun _ => n) σ.Like
      (do if ← isAt .assign then assignTo nested e else return .expr e : Parser StatementKind)
      (do if ← isAt .assign then assignTo nested' e' else return .expr e' :
        Parser StatementKind) := by
  have hplain : σ.Like (StatementKind.expr e) (.expr e') := by
    simp_all [Places.Like, Placed.move, StatementKind.mapSpans]
  constructor
  · intro s c d hc
    rw [isAt_bind, isAt_bind, hc.like.kind, ite_apply, ite_apply]
    split
    · exact assignTo_near hn he hc
    · exact .ok hplain hc
  · intro s c hc
    rw [isAt_bind, if_neg (by rcases hc.kind with hk | hk <;> simp [hk])]
    exact .ok hplain hc

theorem exprStatement_abreast (hn : nested.Abreast σ.places n nested') :
    Abreast σ (n + 1) (fun _ => n) σ.Like (exprStatement nested) (exprStatement nested') :=
  (expr_abreast hn .group).bind fun _ _ he => assigned_abreast hn he

theorem exprStatement_gone (hn : nested.Abreast σ.places n nested') (hc : σ.AtLast (n + 1) c)
    (hk : c.here.kind = .ident) (hr : ¬ c.here.Reserved) :
    Gone σ (fun _ => n) σ.Like (exprStatement nested s c) :=
  gone_bind (expr_gone hc hk (fun h => absurd h hr) hn .group) fun _ _ _ he ha =>
    (assigned_abreast hn he).away ha

/-- The word that introduces a statement is told alike, unless a list ends after a soft keyword. -/
theorem leadWord_like (hc : σ.Near n c d) :
    leadWord c.here c.next? = leadWord d.here d.next? ∨
      σ.AtLast n c ∧ c.here.kind = .ident ∧ ¬ c.here.Reserved ∧
        leadWord c.here c.next? = none := by
  have hlost : σ.AtLast n c → leadWord c.here c.next? = leadWord d.here d.next? ∨
      σ.AtLast n c ∧ c.here.kind = .ident ∧ ¬ c.here.Reserved ∧
        leadWord c.here c.next? = none := by
    intro hlast
    have hident := hlast.not_next (σ.not_continues_last (k := .ident) (by decide))
    have hbrace := hlast.not_next (σ.not_continues_last (k := .openBrace) (by decide))
    rw [leadWord, leadWord, ← hc.like.keyword, hident, hbrace]
    cases hw : c.here.keyword? with
    | none => exact .inl rfl
    | some word =>
      cases hs : word.isSoft with
      | false => cases word <;> first | exact .inl rfl | cases hs
      | true =>
        refine .inr ⟨hlast, Token.kind_of_keyword? hw, ?_, ?_⟩
        · rintro ⟨word', hw', -, hhard⟩
          obtain rfl := Option.some.inj (hw.symm.trans hw')
          simp [hs] at hhard
        · cases word <;> first | rfl | cases hs
  rcases hc.next_map (continuesWith .ident) fun h => h.continues .ident with hident | ⟨hlast, -⟩
  · rcases hc.next_map (continuesWith .openBrace) fun h => h.continues .openBrace with
      hbrace | ⟨hlast, -⟩
    · exact .inl (by rw [leadWord, leadWord, hc.like.keyword, hident, hbrace])
    · exact hlost hlast
  · exact hlost hlast

/-- A statement that a word introduces, or an expression or assignment. -/
def introduced (nested : Nested) : Option Keyword → Parser StatementKind
  | some .modWord => modDecl nested
  | some .useWord => return .useDecl (← useDecl)
  | some .importWord => return .importDecl (← importDecl nested)
  | some .varWord | some .letWord => return .varDecl (← varDecl nested)
  | some .fnWord => return .fnDecl (← fnDecl nested)
  | some .nodeWord => return .nodeDecl (← nodeDecl nested)
  | some .ifWord => return .ifStmt (← ifStmt nested)
  | some .forWord => return .forStmt (← forStmt nested)
  | some .whenWord => return .whenStmt (← whenStmt nested)
  | some .uiWord => do
    let _ ← advance
    return .uiBlock (← block nested)
  | some .styleWord => do
    let _ ← advance
    return .styleBlock (← block nested)
  | some .typeWord => return .typeDecl (← typeDecl)
  | some .enumWord => return .enumDecl (← enumDecl nested)
  | some .breakWord => do
    let _ ← advance
    return .breakStmt
  | _ => exprStatement nested

theorem statementKind_eq : statementKind nested s c =
    introduced nested (leadWord c.here c.next?) s c := by
  rw [statementKind, statementWord?_bind]
  cases leadWord c.here c.next? with
  | none => rfl
  | some word => cases word <;> rfl

theorem introduced_near (hn : nested.Abreast σ.places n nested') (hc : σ.Near (n + 1) c d)
    {word : Option Keyword} (hk : ∀ w ∈ word, c.here.kind ≠ .endOfText) :
    Kept σ (fun _ => n) σ.Like (introduced nested word s c) (introduced nested' word s d) := by
  cases word with
  | none => exact (exprStatement_abreast hn).near hc
  | some word =>
    have htake := kept_take (s := s) hc (hk word rfl)
    cases word
    case useWord =>
      refine (useDecl_abreast.bind fun x y h => .pure ?_ (Nat.le_refl n)).near hc
      simp_all [Places.Like, Placed.move, StatementKind.mapSpans]
    case importWord =>
      refine ((importDecl_abreast hn).bind fun x y h => .pure ?_ (Nat.le_refl n)).near hc
      simp_all [Places.Like, Placed.move, StatementKind.mapSpans]
    case varWord =>
      refine ((varDecl_abreast hn).bind fun x y h => .pure ?_ (Nat.le_refl n)).near hc
      simp_all [Places.Like, Placed.move, StatementKind.mapSpans]
    case letWord =>
      refine ((varDecl_abreast hn).bind fun x y h => .pure ?_ (Nat.le_refl n)).near hc
      simp_all [Places.Like, Placed.move, StatementKind.mapSpans]
    case fnWord =>
      refine ((fnDecl_abreast hn).bind fun x y h => .pure ?_ (Nat.le_refl n)).near hc
      simp_all [Places.Like, Placed.move, StatementKind.mapSpans]
    case nodeWord =>
      refine ((nodeDecl_abreast hn).bind fun x y h => .pure ?_ (Nat.le_refl n)).near hc
      simp_all [Places.Like, Placed.move, StatementKind.mapSpans]
    case ifWord =>
      refine ((ifStmt_abreast hn).bind fun x y h => .pure ?_ (Nat.le_refl n)).near hc
      simp_all [Places.Like, Placed.move, StatementKind.mapSpans]
    case forWord =>
      refine ((forStmt_abreast hn).bind fun x y h => .pure ?_ (Nat.le_refl n)).near hc
      simp_all [Places.Like, Placed.move, StatementKind.mapSpans]
    case whenWord =>
      refine ((whenStmt_abreast hn).bind fun x y h => .pure ?_ (Nat.le_refl n)).near hc
      simp_all [Places.Like, Placed.move, StatementKind.mapSpans]
    case typeWord =>
      refine (typeDecl_abreast.bind fun x y h => .pure ?_ (Nat.le_refl n)).near hc
      simp_all [Places.Like, Placed.move, StatementKind.mapSpans]
    case enumWord =>
      refine ((enumDecl_abreast hn).bind fun x y h => .pure ?_ (Nat.le_refl n)).near hc
      simp_all [Places.Like, Placed.move, StatementKind.mapSpans]
    case modWord =>
      refine kept_then htake fun _ _ _ => ?_
      refine (Abreast.lax fun _ _ => name_abreast).bind fun x y hxy => ?_
      refine (block_lax hn).bind fun b b' hb => .pure ?_ (Nat.le_refl n)
      simp_all [Places.Like, Placed.move, StatementKind.mapSpans]
    case uiWord =>
      refine kept_then htake fun _ _ _ => (block_lax hn).bind fun b b' hb => ?_
      refine .pure ?_ (Nat.le_refl n)
      simp_all [Places.Like, Placed.move, StatementKind.mapSpans]
    case styleWord =>
      refine kept_then htake fun _ _ _ => (block_lax hn).bind fun b b' hb => ?_
      refine .pure ?_ (Nat.le_refl n)
      simp_all [Places.Like, Placed.move, StatementKind.mapSpans]
    case breakWord => exact kept_then htake fun _ _ _ => .pure rfl (Nat.le_refl n)
    all_goals exact (exprStatement_abreast hn).near hc

theorem statementKind_abreast (hn : nested.Abreast σ.places n nested') :
    Abreast σ (n + 1) (fun _ => n) σ.Like (statementKind nested) (statementKind nested') := by
  constructor
  · intro s c d hc
    rw [statementKind_eq, statementKind_eq]
    rcases leadWord_like hc with hlead | ⟨hlast, hk, hr, hlead⟩
    · rw [← hlead]
      refine introduced_near hn hc fun w hw => ?_
      rw [Token.kind_of_keyword? (leadWord_some hw).1]
      decide
    · rw [hlead]
      exact .gone (exprStatement_gone hn hlast hk hr)
  · intro s c hc
    have hlead : leadWord c.here c.next? = none := by rw [leadWord, hc.keyword]
    rw [statementKind_eq, hlead]
    exact (exprStatement_abreast hn).away hc

theorem statement_abreast (hn : nested.Abreast σ.places n nested') :
    Abreast σ (n + 1) (fun _ => n) σ.Like (statement nested) (statement nested') := by
  refine position_abreast.bind fun i j hij => (statementKind_abreast hn).bind fun x y hxy => ?_
  refine (spanFrom_abreast hij).bind fun z z' hz => .pure ?_ (Nat.le_refl n)
  simp_all [Places.Like, Placed.move, Statement.mapSpans]

end Statements

end Parser

/-- The parsers of a level keep abreast of those of any higher level, for as many bytes as there are
levels. -/
theorem Nested.level_abreast (P : Places) :
    ∀ {n m : Nat}, n ≤ m → (Nested.level n).Abreast P n (Nested.level m)
  | 0, _, _ =>
    ⟨fun _ _ _ hk => absurd hk (Nat.not_lt_zero _), fun _ _ _ hk => absurd hk (Nat.not_lt_zero _),
      fun _ _ hk => absurd hk (Nat.not_lt_zero _), fun _ _ _ hk => absurd hk (Nat.not_lt_zero _),
      fun _ _ _ hk => absurd hk (Nat.not_lt_zero _), fun _ _ _ hk => absurd hk (Nat.not_lt_zero _),
      ⟨_, Parser.level_sound 0, Rules.level_spanning 0⟩⟩
  | n + 1, m + 1, h => by
    have hn := Nested.level_abreast P (Nat.le_of_succ_le_succ h)
    have hk : ∀ {k}, k < n + 1 → (Nested.level n).Abreast P k (Nested.level m) :=
      fun hk => hn.mono (Nat.le_of_lt_succ hk)
    refine ⟨?_, ?_, ?_, ?_, ?_, ?_,
      ⟨_, Parser.level_sound (n + 1), Rules.level_spanning (n + 1)⟩⟩
    · rintro σ rfl min k hlt
      exact Parser.expr_abreast (hk hlt) min
    · rintro σ rfl min k hlt
      exact Parser.value_abreast (hk hlt) min
    · rintro σ rfl k hlt
      exact Parser.statement_abreast (hk hlt)
    · rintro σ rfl min k hlt s c hc hident hr
      exact Parser.expr_gone hc hident hr (hk hlt) min
    · rintro σ rfl min k hlt s c d c' d' e e' hc he hp he' hp'
      exact Parser.expr_key (hk hlt) hc he hp he' hp'
    · rintro σ rfl min k hlt s c c' e hc
      exact Parser.expr_silent hc

end Script
