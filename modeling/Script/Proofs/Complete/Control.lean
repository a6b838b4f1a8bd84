import Script.Proofs.Complete.Expression
import Script.Rules.Control

/-!
What is written as the rules for `if`, `for` and `when` say is read by their parsers. The heads of
these constructs end at the brace of a block, and their bindings at a semicolon.
-/
namespace Script

variable {rules : Rules} {s : Surroundings} {ts r : List Token}

theorem Block.Written.brace {b : Block} (w : b.Written rules ts) :
    ∃ t us, ts = t :: us ∧ t.kind = .openBrace := by
  cases w with
  | mk ht => exact ⟨_, _, rfl, ht⟩

theorem Block.Written.final {b : Block} (w : b.Written rules ts) (hs : s.brace = .expectBlock)
    (us : List Token) : Final s (ts ++ us) := by
  obtain ⟨t, vs, rfl, ht⟩ := w.brace
  exact final_of_brace hs ht

/-- The body of a case begins with an arrow or a brace. -/
theorem CaseBody.Written.front {b : CaseBody} (w : b.Written rules s ts) :
    ∃ t us, ts = t :: us ∧ t.kind ≠ .ident := by
  cases w with
  | arrow ht => exact ⟨_, _, rfl, by simp [ht]⟩
  | block hb =>
    obtain ⟨t, us, rfl, ht⟩ := hb.brace
    exact ⟨t, us, rfl, by simp [ht]⟩

/-- One token before the cases of a `when` end tells whether an `else` begins them. -/
theorem WhenCase.EachWritten.front {t : Token} {o : Option CaseBody} {xs : List WhenCase}
    (w : WhenCase.EachWritten rules o xs (t :: ts)) : t.kind ≠ .ident ∨ ts ≠ [] := by
  generalize hus : t :: ts = us at w
  cases w with
  | done hl =>
    cases hl with
    | none ht =>
      obtain ⟨rfl, rfl⟩ := List.cons.inj hus
      exact .inl (by simp [ht])
    | some =>
      obtain ⟨rfl, rfl⟩ := List.cons.inj hus
      exact .inr (by simp)
    | separated =>
      obtain ⟨rfl, rfl⟩ := List.cons.inj hus
      exact .inr (by simp)
  | separated hc =>
    obtain ⟨u, vs, rfl, -⟩ := hc.begin
    obtain ⟨-, rfl⟩ := List.cons.inj hus
    exact .inr (by simp)
  | unseparated hc =>
    obtain ⟨u, vs, rfl, -⟩ := hc.begin
    obtain ⟨-, rfl⟩ := List.cons.inj hus
    exact .inr (by simp)

theorem Expr.Written.not_control {min : Strength} {e : Expr} (w : e.Written rules s min ts) :
    ¬ e.IsControl := by
  cases w with
  | operand he => cases he <;> exact id
  | extend _ _ _ he => cases he <;> exact id

theorem Token.keyword?_of_kind {t : Token} (h : t.kind ≠ .ident) : t.keyword? = none := by
  simp [Token.keyword?, h]

namespace Parser

variable {nested : Nested} {k : Nat} {c c' : Cursor}

theorem elseIf_complete (hn : nested.Complete k rules) (ho : rules.Opening) {e : ElseIf}
    (w : e.Written rules s ts) (hl : Light (k + 1) ts) (hr : c.rest = ts ++ r) (hne : r ≠ []) :
    ∃ c', elseIf nested s c = .ok (some e) c' ∧ c.Takes ts c' ∧ c'.rest = r := by
  cases w with
  | @mk t u ts us condition body ht hu hc hb =>
    have hat : AtElse c.rest := by
      refine ⟨t, u, (ts ++ us) ++ r, by simpa using hr, ht, fun hk => ?_⟩
      simp [Token.keyword?, hk] at hu
    have hnext : (c.next?.map (·.keyword? == some .ifWord)).getD false = true := by
      rw [Cursor.next?_eq (by simpa using hr)]
      simp [hu]
    obtain ⟨rfl, k1, r1⟩ := Cursor.next (r := u :: (ts ++ (us ++ r))) (by simpa using hr) (by simp)
    obtain ⟨rfl, k2, r2⟩ := Cursor.next (r := ts ++ (us ++ r)) r1 (by simp [hne])
    obtain ⟨c1, hx, k3, r3⟩ := hn.expr _ hc hl.tail.drop.left r2 (by simp [hne])
      ((hb.final rfl r).closes _ _)
    obtain ⟨c2, hy, k4, r4⟩ := block_complete hn ho (s := s) hb hl.drop.drop.right r3 hne trivial
    have hk := k1.cons (k2.cons (k3.trans k4))
    refine ⟨c2, elseIf_ok.2 (.inl ⟨atElse_iff.2 hat, hnext, condition, c1, hx, body, c2, hy, ?_,
      rfl⟩), hk, r4⟩
    rw [hk.spanFrom (by simp), Token.spanOf]

/-- After its `else if` clauses an `if` goes on with its `else` block or not at all. -/
theorem elseIfs_complete (hn : nested.Complete k rules) (ho : rules.Opening) {es : List ElseIf}
    (w : ElseIf.EachWritten rules s es ts) :
    ∀ {c : Cursor}, Light (k + 1) ts → c.rest = ts ++ r → r ≠ [] →
      (∀ t u us, r = t :: u :: us → t.keyword? = some .elseWord →
        u.keyword? = some .ifWord → False) →
      ∃ c', Items (elseIf nested) s c es c' ∧ c.Takes ts c' ∧ c'.rest = r := by
  induction w with
  | nil =>
    intro c _ hr _ hend
    rw [List.nil_append] at hr
    refine ⟨c, .done (elseIf_ok.2 (.inr ⟨?_, rfl, rfl⟩)), .refl c, hr⟩
    rintro ⟨hat, hif⟩
    obtain ⟨t, u, us, hr', ht, -⟩ := atElse_iff.1 hat
    refine hend t u us (hr.symm.trans hr') ht ?_
    rw [Cursor.next?_eq hr'] at hif
    simpa using hif
  | cons he _ ih =>
    intro c hl hr hne hend
    rw [List.append_assoc] at hr
    obtain ⟨c1, h1, k1, r1⟩ := elseIf_complete hn ho he hl.left hr (by simp [hne])
    obtain ⟨c2, h2, k2, r2⟩ := ih hl.right r1 hne hend
    exact ⟨c2, .more h1 h2, k1.trans k2, r2⟩

theorem elseIfs_length {es : List ElseIf} (w : ElseIf.EachWritten rules s es ts) :
    es.length ≤ ts.length := by
  induction w with
  | nil => simp
  | cons he _ ih =>
    cases he with
    | mk =>
      simp only [List.length_cons, List.length_append] at ih ⊢
      omega

theorem elseBlock_complete (hn : nested.Complete k rules) (ho : rules.Opening) :
    Complete (k + 1) (elseBlock nested) (fun _ => Block.ElseWritten rules)
      fun _ r o => o.isNone → ¬ AtElse r := by
  intro s o ts c r w hl hr hne hend
  cases w with
  | none =>
    rw [List.nil_append] at hr
    refine ⟨c, elseBlock_ok.2 (.inr ⟨?_, rfl, rfl⟩), .refl c, hr⟩
    rw [← Bool.not_eq_true, atElse_iff, hr]
    exact hend rfl
  | @some t body ts ht hb =>
    obtain ⟨u, us, rfl, hu⟩ := hb.brace
    have hat : AtElse c.rest := ⟨t, u, us ++ r, by simpa using hr, ht, by simp [hu]⟩
    obtain ⟨rfl, k1, r1⟩ := Cursor.next (r := u :: us ++ r) hr (by simp)
    obtain ⟨c', hx, k2, r2⟩ := block_complete hn ho (s := s) hb hl.drop r1 hne trivial
    exact ⟨c', elseBlock_ok.2 (.inl ⟨atElse_iff.2 hat, _, c', hx, rfl, rfl⟩), k1.cons k2, r2⟩

theorem ifStmt_complete (hn : nested.Complete k rules) (ho : rules.Opening) :
    Complete (k + 1) (ifStmt nested) (fun s => IfStmt.Written rules s)
      fun _ r stmt => stmt.EndsBefore r := by
  intro s stmt ts c r w hl hr hne hend
  cases w with
  | @mk t ts us vs ws condition body elseIfs elseBody ht hc hb hes hel =>
    have hlast : ∀ t u us, ws ++ r = t :: u :: us → t.keyword? = some .elseWord →
        u.keyword? = some .ifWord → False := by
      intro t u us hws ht hu
      cases hel with
      | none =>
        refine hend rfl ⟨t, u, us, hws, ht, fun hk => ?_⟩
        simp [Token.keyword?, hk] at hu
      | some _ hbody =>
        obtain ⟨v, vs, rfl, hv⟩ := hbody.brace
        simp only [List.cons_append, List.cons.injEq] at hws
        obtain ⟨rfl, rfl, -⟩ := hws
        simp [Token.keyword?, hv] at hu
    have hr : c.rest = t :: (ts ++ (us ++ (vs ++ (ws ++ r)))) := by simpa using hr
    obtain ⟨rfl, k1, r1⟩ := Cursor.next hr (by simp [hne])
    obtain ⟨c1, h1, k2, r2⟩ := hn.expr _ hc hl.tail.left r1 (by simp [hne])
      ((hb.final rfl _).closes _ _)
    obtain ⟨c2, h2, k3, r3⟩ := block_complete hn ho (s := s) hb hl.drop.right.left r2
      (by simp [hne]) trivial
    obtain ⟨c3, h3, k4, r4⟩ := elseIfs_complete hn ho hes hl.drop.right.right.left r3
      (by simp [hne]) hlast
    obtain ⟨c4, h4, k5, r5⟩ := elseBlock_complete hn ho (s := s) hel hl.drop.right.right.right r4
      hne hend
    have hlen := Nat.lt_of_le_of_lt (elseIfs_length hes) (rest_length r3 (by simp [hne]))
    have hk := k1.cons (k2.trans (k3.trans (k4.trans k5)))
    refine ⟨c4, ifStmt_ok.2 ⟨ht, condition, c1, h1, body, c2, h2, elseIfs, c3,
      collect_of_items h3 hlen, elseBody, c4, h4, ?_, rfl⟩, hk, r5⟩
    rw [hk.spanFrom (by simp), Token.spanOf]

theorem varDecl_complete (hn : nested.Complete k rules) :
    Complete (k + 1) (varDecl nested) (fun s => VarDecl.Written rules s)
      fun s r d => d.value.ClosesValue s .group r := by
  intro s d ts c r w hl hr hne hend
  cases w with
  | @mk t u v ts us binding name type value ht hname hy hv he =>
    have hr : c.rest = t :: u :: (ts ++ v :: (us ++ r)) := by simpa using hr
    obtain ⟨rfl, k1, r1⟩ := Cursor.next hr (by simp)
    obtain ⟨rfl, k2, r2⟩ := Cursor.next r1 (by simp)
    have hapart : Apart (v :: (us ++ r)) := apart_of_kind (by rw [hv]; decide)
    obtain ⟨c1, h1, k3, r3⟩ := annotation_complete (s := s) hy hl.drop.drop.left r2 (by simp)
      (hapart.annotated type)
    obtain ⟨rfl, k4, r4⟩ := Cursor.next r3 (by simp [hne])
    obtain ⟨c2, h2, k5, r5⟩ := hn.value _ he hl.tail.drop.right.drop r4 hne hend
    have hk := k1.cons (k2.cons (k3.trans (k4.cons k5)))
    refine ⟨c2, varDecl_ok.2 ⟨binding, ht, hname.kind, type, c1, h1, hv, value, c2, h2, ?_, rfl⟩,
      hk, r5⟩
    rw [hk.spanFrom (by simp), hname.eq, Token.spanOf]

theorem isBindingWord_keyword (b : BindingKind) : isBindingWord (some b.keyword) = true := by
  cases b <;> rfl

/-- An expression begins with no binding word. -/
theorem not_bindingWord {t : Token} (h : Opens (t :: ts)) : isBindingWord t.keyword? = false := by
  cases hk : t.keyword? with
  | none => rfl
  | some w =>
    have hword := h.word t rfl w hk
    cases w <;> simp [Keyword.isSoft, literalWord?, isBindingWord] at hword ⊢

/-- The bindings of a head are read up to a word that is no binding word. -/
theorem initDecls_complete (hn : nested.Complete k rules) {ds : List VarDecl}
    (w : VarDecl.InitWritten rules s ds ts) (hl : Light (k + 1) ts) (hr : c.rest = ts ++ r)
    (hne : r ≠ []) (hend : ∀ t ∈ r.head?, isBindingWord t.keyword? = false) :
    ∃ c', initDecls nested s c = .ok ds c' ∧ c.Takes ts c' ∧ c'.rest = r := by
  have hlen : ds.length ≤ ts.length := by
    clear hl hr
    induction w with
    | nil => simp
    | cons _ _ _ ih =>
      simp only [List.length_append, List.length_cons]
      omega
  suffices ∃ c', Items _ s c ds c' ∧ c.Takes ts c' ∧ c'.rest = r by
    obtain ⟨c', hi, k1, r1⟩ := this
    exact ⟨c', collect_of_items hi (Nat.lt_of_le_of_lt hlen (rest_length hr hne)), k1, r1⟩
  clear hlen
  induction w generalizing c with
  | nil =>
    rw [List.nil_append] at hr
    refine ⟨c, .done (initDecl_ok.2 (.inr ⟨hend c.here ?_, rfl, rfl⟩)), .refl c, hr⟩
    rw [← hr]
    rfl
  | @cons d ds t ts us hd ht _ ih =>
    rw [List.append_assoc] at hr
    have hfinal : Final s.head (t :: us ++ r) := Delimits.final (by rw [ht]; decide)
    obtain ⟨c1, h1, k1, r1⟩ := varDecl_complete hn hd hl.left hr (by simp)
      (hfinal.closesValue _ _)
    obtain ⟨rfl, k2, r2⟩ := Cursor.next (r := us ++ r) r1 (by simp [hne])
    obtain ⟨c2, h2, k3, r3⟩ := ih hl.right.drop r2
    have hword : isBindingWord c.here.keyword? = true := by
      cases hd with
      | mk hw => rw [k1.here_eq, hw, isBindingWord_keyword]
    exact ⟨c2, .more (initDecl_ok.2 (.inl ⟨hword, d, c1, h1, ht, rfl, rfl⟩)) h2,
      k1.trans (k2.cons k3), r3⟩

theorem atIterHead_binding {d : VarDecl} (w : d.Written rules s ts) (hr : c.rest = ts ++ r) :
    atIterHead c = false := by
  cases w with
  | mk ht =>
    rw [List.cons_append] at hr
    obtain ⟨rfl, -⟩ := Cursor.rest_eq_cons hr
    simp [atIterHead, ht, isBindingWord_keyword]

/-- The head of a loop and its block. Only a head `i in` or `i, x in` begins with a word that `in`
or a comma follows. -/
theorem forHead_complete (hn : nested.Complete k rules) (ho : rules.Opening) {head : ForHead}
    {body : Block} {us : List Token} (w : head.Written rules s ts) (hb : body.Written rules us)
    (hl : Light k ts) (hr : c.rest = ts ++ (us ++ r)) (hne : r ≠ []) :
    ∃ c', ((atIterHead c = true ∧ iterHead nested s c = .ok head c') ∨
        (atIterHead c = false ∧ countedHead nested s c = .ok head c')) ∧
      c.Takes ts c' ∧ c'.rest = us ++ r := by
  have hrest : us ++ r ≠ [] := by simp [hne]
  cases w with
  | @iterate t u ts name iterable hname hw hu hi =>
    have hnext := Cursor.next?_eq hr
    obtain ⟨rfl, k1, r1⟩ := Cursor.next (r := u :: (ts ++ (us ++ r))) hr (by simp)
    obtain ⟨rfl, k2, r2⟩ := Cursor.next (r := ts ++ (us ++ r)) r1 (by simp [hne])
    obtain ⟨c', hx, k3, r3⟩ := hn.value _ hi hl.drop.drop r2 hrest
      ((hb.final rfl r).closesValue _ _)
    have hcomma : c.advance.here.kind ≠ .comma := by
      intro hk
      simp [Token.keyword?, hk] at hu
    refine ⟨c', .inl ⟨?_, iterHead_ok.2 ⟨hname.kind, .inr ⟨hcomma, hu, iterable, c', hx, ?_, rfl⟩⟩⟩,
      k1.cons (k2.cons k3), r3⟩
    · simp [atIterHead, hname.kind, hw, hnext, hu]
    · rw [hname.eq]
  | @indexed t x v u ts index name iterable hindex hw hx hname hu hi =>
    have hnext := Cursor.next?_eq hr
    obtain ⟨rfl, k1, r1⟩ := Cursor.next (r := x :: v :: u :: (ts ++ (us ++ r))) hr (by simp)
    obtain ⟨rfl, k2, r2⟩ := Cursor.next (r := v :: u :: (ts ++ (us ++ r))) r1 (by simp)
    obtain ⟨rfl, k3, r3⟩ := Cursor.next (r := u :: (ts ++ (us ++ r))) r2 (by simp)
    obtain ⟨rfl, k4, r4⟩ := Cursor.next (r := ts ++ (us ++ r)) r3 (by simp [hne])
    obtain ⟨c', hy, k5, r5⟩ := hn.value _ hi hl.drop.drop.drop.drop r4 hrest
      ((hb.final rfl r).closesValue _ _)
    refine ⟨c', .inl ⟨?_, iterHead_ok.2 ⟨hindex.kind, .inl ⟨hx, hname.kind, hu, iterable, c', hy,
      ?_, rfl⟩⟩⟩, k1.cons (k2.cons (k3.cons (k4.cons k5))), r5⟩
    · simp [atIterHead, hindex.kind, hw, hnext, hx]
    · rw [hindex.eq, hname.eq]
  | @init init ts hd =>
    obtain ⟨u, vs, rfl, hu⟩ := hb.brace
    have hend : ∀ t ∈ (u :: vs ++ r).head?, isBindingWord t.keyword? = false := by
      intro t ht
      obtain rfl := Option.some.inj ht
      simp [Token.keyword?, hu, isBindingWord]
    obtain ⟨c', hx, k1, r1⟩ := initDecls_complete hn hd hl.succ hr hrest hend
    refine ⟨c', .inr ⟨?_, countedHead_ok.2 ⟨init, c', hx, .inl ⟨?_, rfl, rfl⟩⟩⟩, k1, r1⟩
    · cases hd with
      | nil =>
        obtain ⟨rfl, -⟩ := Cursor.rest_eq_cons hr
        simp [atIterHead, hu]
      | cons hd => exact atIterHead_binding hd (by simpa using hr)
    · rw [(Cursor.rest_eq_cons r1).1]
      exact hu
  | @counted init condition ts vs hd hc =>
    rw [List.append_assoc] at hr
    have hopens := ho.expr hc
    obtain ⟨t, ws, rfl, ht⟩ := hopens.begin
    have hend : ∀ u ∈ (t :: ws ++ (us ++ r)).head?, isBindingWord u.keyword? = false := by
      intro u hu
      obtain rfl := Option.some.inj hu
      exact not_bindingWord hopens
    obtain ⟨c1, hx, k1, r1⟩ := initDecls_complete hn hd hl.left.succ hr (by simp) hend
    obtain ⟨c', hy, k2, r2⟩ := hn.expr _ hc hl.right r1 hrest ((hb.final rfl r).closes _ _)
    have hbrace : c1.here.kind ≠ .openBrace := by
      rw [(Cursor.rest_eq_cons r1).1]
      exact ho.head hc rfl t rfl
    refine ⟨c', .inr ⟨?_, countedHead_ok.2 ⟨init, c1, hx, .inr ⟨hbrace, condition, c', hy, rfl,
      rfl⟩⟩⟩, k1.trans k2, r2⟩
    cases hd with
    | cons hd => exact atIterHead_binding hd (by simpa using hr)
    | nil =>
      have hnext := Cursor.next?_eq hr
      obtain ⟨rfl, -⟩ := Cursor.rest_eq_cons hr
      by_cases hk : c.here.kind = .ident
      · obtain ⟨u, vs, hvs, hu⟩ : ∃ u vs, ws ++ (us ++ r) = u :: vs ∧ u.kind ≠ .ident ∧
            u.kind ≠ .comma := by
          cases ws with
          | nil =>
            obtain ⟨u, vs, rfl, hu⟩ := hb.brace
            exact ⟨u, vs ++ r, rfl, by simp [hu], by simp [hu]⟩
          | cons u vs =>
            have hu := hopens.after c.here rfl hk u rfl
            exact ⟨u, vs ++ (us ++ r), rfl, hu.1, hu.2.1⟩
        simp [atIterHead, hnext, hvs, hu.2, Token.keyword?_of_kind hu.1]
      · simp [atIterHead, hk]

theorem forStmt_complete (hn : nested.Complete k rules) (ho : rules.Opening) :
    Complete (k + 1) (forStmt nested) (fun s => ForStmt.Written rules s) fun _ _ _ => True := by
  intro s stmt ts c r w hl hr hne _
  cases w with
  | @mk t ts us head body ht hh hb =>
    have hr : c.rest = t :: (ts ++ (us ++ r)) := by simpa using hr
    obtain ⟨rfl, k1, r1⟩ := Cursor.next hr (by simp [hne])
    obtain ⟨c1, h1, k2, r2⟩ := forHead_complete hn ho hh hb hl.tail.left r1 hne
    obtain ⟨c2, h2, k3, r3⟩ := block_complete hn ho (s := s) hb hl.drop.right r2 hne trivial
    have hk := k1.cons (k2.trans k3)
    refine ⟨c2, forStmt_ok.2 ⟨ht, head, c1, h1, body, c2, h2, ?_, rfl⟩, hk, r3⟩
    rw [hk.spanFrom (by simp), Token.spanOf]

theorem caseBody_complete (hn : nested.Complete k rules) (ho : rules.Opening) :
    Complete (k + 1) (caseBody nested) (fun s => CaseBody.Written rules s)
      fun s r b => b.EndsBefore s r := by
  intro s b ts c r w hl hr hne hend
  cases w with
  | @arrow t ts st ht hs =>
    obtain ⟨u, us, rfl, -⟩ := ho.statement hs
    obtain ⟨rfl, k1, r1⟩ := Cursor.next (r := u :: us ++ r) hr (by simp)
    obtain ⟨c', h1, k2, r2⟩ := hn.statement hs hl.tail r1 hne hend
    exact ⟨c', caseBody_ok.2 (.inl ⟨ht, st, c', h1, rfl, rfl⟩), k1.cons k2, r2⟩
  | @block ts body hb =>
    obtain ⟨c', h1, k1, r1⟩ := block_complete hn ho (s := s) hb hl hr hne trivial
    obtain ⟨u, us, rfl, hu⟩ := hb.brace
    obtain ⟨rfl, -⟩ := Cursor.rest_eq_cons hr
    exact ⟨c', caseBody_ok.2 (.inr ⟨hu, body, c', h1, rfl, rfl⟩), k1, r1⟩

theorem whenCase_complete (hn : nested.Complete k rules) (ho : rules.Opening) :
    Complete (k + 1) (whenCase nested) (fun s => WhenCase.Written rules s)
      fun s r x => x.body.EndsBefore s r := by
  intro s x ts c r w hl hr hne hend
  cases w with
  | @mk t ts us pattern body ht hp hc hb =>
    obtain ⟨u, vs, rfl, hu⟩ := hb.front
    have hr : c.rest = t :: (ts ++ (u :: vs ++ r)) := by simpa using hr
    obtain ⟨rfl, k1, r1⟩ := Cursor.next hr (by simp)
    have halike := alike_extend vs r (.inl hu)
    obtain ⟨c1, h1, k2, r2⟩ := hn.expr _ hp hl.tail.left r1 (by simp) (hc.mono halike.looser)
    obtain ⟨c2, h2, k3, r3⟩ := caseBody_complete hn ho hb hl.drop.right r2 hne hend
    have hk := k1.cons (k2.trans k3)
    refine ⟨c2, whenCase_ok.2 ⟨ht, pattern, c1, h1, body, c2, h2, ?_, rfl⟩, hk, r3⟩
    rw [hk.spanFrom (by simp), Token.spanOf]

/-- The cases of a `when` are read up to its `else` case or its closing brace. -/
theorem whenCases_complete (hn : nested.Complete k rules) (ho : rules.Opening)
    {o : Option CaseBody} {xs : List WhenCase} (w : WhenCase.EachWritten rules o xs ts)
    (hl : Light (k + 1) ts) (hr : c.rest = ts ++ r) (hne : r ≠ []) :
    ∃ c' us vs, whenCases nested .item c = .ok xs c' ∧ ts = us ++ vs ∧
      CaseBody.ElseWritten rules o vs ∧ c.Takes us c' ∧ c'.rest = vs ++ r := by
  have hlen : xs.length ≤ ts.length := by
    clear hl hr
    induction w with
    | done => simp
    | separated _ _ _ _ ih =>
      simp only [List.length_append, List.length_cons]
      omega
    | unseparated hc _ _ _ _ ih =>
      have := List.length_pos_iff.2 hc.begin.ne_nil
      simp only [List.length_append, List.length_cons] at ih ⊢
      omega
  suffices ∃ c' us vs, Items _ .item c xs c' ∧ ts = us ++ vs ∧ CaseBody.ElseWritten rules o vs ∧
      c.Takes us c' ∧ c'.rest = vs ++ r by
    obtain ⟨c', us, vs, hi, hts, hel, k1, r1⟩ := this
    exact ⟨c', us, vs, collect_of_items hi (Nat.lt_of_le_of_lt hlen (rest_length hr hne)), hts, hel,
      k1, r1⟩
  have hfirst : ∀ {c : Cursor} {x : WhenCase} {us vs}, x.Written rules .item us →
      c.rest = us ++ vs → ¬ (c.here.kind = .closeBrace ∨ c.here.keyword? = some .elseWord) := by
    intro c x us vs hx hr
    cases hx with
    | mk ht =>
      obtain ⟨rfl, -⟩ := Cursor.rest_eq_cons hr
      simp [Token.kind_of_keyword? ht, ht]
  clear hlen
  induction w generalizing c with
  | @done ts hel =>
    have hend : c.here.kind = .closeBrace ∨ c.here.keyword? = some .elseWord := by
      cases hel with
      | none ht => exact .inl ((Cursor.rest_eq_cons hr).1 ▸ ht)
      | some ht => exact .inr ((Cursor.rest_eq_cons hr).1 ▸ ht)
      | separated ht => exact .inr ((Cursor.rest_eq_cons hr).1 ▸ ht)
    exact ⟨c, [], ts, .done (whenCases_ok.2 (.inl ⟨hend, rfl, rfl⟩)), rfl, hel, .refl c, hr⟩
  | @separated x xs t ts us hx he ht hcs ih =>
    rw [List.append_assoc] at hr
    have halike := alike_extend us r (.inl (by rw [ht]; decide))
    obtain ⟨c1, h1, k1, r1⟩ := whenCase_complete hn ho hx hl.left hr (by simp) (halike.caseBody he)
    obtain ⟨rfl, k2, r2⟩ := Cursor.next (r := us ++ r) r1 (by simp [hne])
    obtain ⟨c2, vs, ws, h2, rfl, hel, k3, r3⟩ := ih hl.right.drop r2
    exact ⟨c2, _, ws,
      .more (whenCases_ok.2 (.inr ⟨hfirst hx hr, x, c1, h1, rfl, .inl ⟨ht, rfl⟩⟩)) h2, by simp,
      hel, k1.trans (k2.cons k3), r3⟩
  | @unseparated x xs t ts us hx he ht hb hcs ih =>
    rw [List.append_assoc] at hr
    have halike := alike_extend _ r hcs.front
    obtain ⟨c1, h1, k1, r1⟩ := whenCase_complete hn ho hx hl.left hr (by simp) (halike.caseBody he)
    obtain ⟨rfl, -⟩ := Cursor.rest_eq_cons r1
    obtain ⟨c2, vs, ws, h2, hts, hel, k2, r2⟩ := ih hl.right r1
    exact ⟨c2, ts ++ vs, ws,
      .more (whenCases_ok.2 (.inr ⟨hfirst hx hr, x, c1, h1, rfl, .inr ⟨ht, hb, rfl⟩⟩)) h2,
      by rw [hts, List.append_assoc], hel, k1.trans k2, r2⟩

/-- An `else` case is read up to the closing brace of its `when`. -/
theorem elseCase_complete (hn : nested.Complete k rules) (ho : rules.Opening)
    {o : Option CaseBody} (w : CaseBody.ElseWritten rules o ts) (hl : Light (k + 1) ts)
    (hr : c.rest = ts ++ r) :
    ∃ c' us t, elseCase nested .item c = .ok o c' ∧ ts = us ++ [t] ∧ t.kind = .closeBrace ∧
      c.Takes us c' ∧ c'.rest = t :: r := by
  have body_ends : ∀ {b : CaseBody} {t : Token} {us}, t.kind = .semicolon ∨ t.kind = .closeBrace →
      b.EndsBefore .item (t :: us) := by
    intro b t us ht
    have hends : EndsAll .item (t :: us) := by
      rcases ht with ht | ht <;>
        exact Delimits.endsAll (by rw [ht]; decide) (by rw [ht]; decide)
    cases b with
    | block => trivial
    | arrow st => exact hends.statement st
  cases w with
  | @none t ht =>
    obtain ⟨rfl, -⟩ := Cursor.rest_eq_cons hr
    have hword : c.here.keyword? ≠ some .elseWord := by
      simp [Token.keyword?, ht]
    exact ⟨c, [], c.here, elseCase_ok.2 (.inr ⟨hword, rfl, rfl⟩), rfl, ht, .refl c, hr⟩
  | @some t u ts body ht hb hu =>
    obtain ⟨v, vs, rfl, -⟩ := hb.front
    obtain ⟨rfl, k1, r1⟩ := Cursor.next (r := v :: vs ++ u :: r) (by simpa using hr) (by simp)
    obtain ⟨c1, h1, k2, r2⟩ := caseBody_complete hn ho hb hl.drop.left r1 (by simp)
      (body_ends (.inr hu))
    obtain ⟨rfl, -⟩ := Cursor.rest_eq_cons r2
    exact ⟨c1, _, c1.here, elseCase_ok.2 (.inl ⟨ht, body, c1, h1, .inr ⟨hu, rfl, rfl⟩⟩),
      rfl, hu, k1.cons k2, r2⟩
  | @separated t u v ts body ht hb hv hu =>
    obtain ⟨x, xs, rfl, -⟩ := hb.front
    obtain ⟨rfl, k1, r1⟩ := Cursor.next (r := x :: xs ++ v :: u :: r) (by simpa using hr) (by simp)
    obtain ⟨c1, h1, k2, r2⟩ := caseBody_complete hn ho hb hl.drop.left r1 (by simp)
      (body_ends (.inl hv))
    obtain ⟨rfl, k3, r3⟩ := Cursor.next r2 (by simp)
    obtain ⟨rfl, -⟩ := Cursor.rest_eq_cons r3
    have htakes := k1.cons (k2.trans k3)
    exact ⟨c1.advance, _, c1.advance.here,
      elseCase_ok.2 (.inl ⟨ht, body, c1, h1, .inl ⟨hv, hu, rfl, rfl⟩⟩), by simp, hu, htakes, r3⟩

theorem whenStmt_complete (hn : nested.Complete k rules) (ho : rules.Opening) :
    Complete (k + 1) (whenStmt nested) (fun s => WhenStmt.Written rules s) fun _ _ _ => True := by
  intro s stmt ts c r w hl hr hne _
  cases w with
  | @mk t u ts us vs init subject cases elseBody ht hi hs hu hc =>
    have hr : c.rest = t :: (ts ++ (us ++ u :: (vs ++ r))) := by simpa using hr
    obtain ⟨rfl, k1, r1⟩ := Cursor.next hr (by simp)
    have hend : ∀ t ∈ (us ++ u :: (vs ++ r)).head?, isBindingWord t.keyword? = false := by
      obtain ⟨v, ws, rfl, -⟩ := (ho.expr hs).begin
      intro t ht
      obtain rfl := Option.some.inj ht
      exact not_bindingWord (ho.expr hs)
    obtain ⟨c1, h1, k2, r2⟩ := initDecls_complete hn hi hl.drop.left r1 (by simp) hend
    have hfinal : Final s.head (u :: (vs ++ r)) := final_of_brace rfl hu
    obtain ⟨c2, h2, k3, r3⟩ := hn.expr _ hs hl.tail.right.left r2 (by simp) (hfinal.closes _ _)
    obtain ⟨rfl, k4, r4⟩ := Cursor.next r3 (by simp [hne])
    obtain ⟨c3, ws, xs, h3, rfl, hel, k5, r5⟩ := whenCases_complete hn ho hc
      hl.drop.right.right.drop r4 hne
    obtain ⟨c4, ys, v, h4, rfl, hv, k6, r6⟩ := elseCase_complete hn ho hel
      hl.drop.right.right.drop.right r5
    obtain ⟨rfl, k7, r7⟩ := Cursor.next r6 hne
    have hk := k1.cons (k2.trans (k3.trans (k4.cons (k5.trans (k6.trans k7)))))
    refine ⟨_, whenStmt_ok.2 ⟨ht, init, c1, h1, subject, c2, h2, hu, cases, c3, h3, elseBody, c4,
      h4, hv, ?_, rfl⟩, hk, r7⟩
    rw [hk.spanFrom (by simp), Token.spanOf]

theorem value_complete (hn : nested.Complete k rules) (ho : rules.Opening) (min : Strength) :
    Complete (k + 1) (value nested min) (fun s => Expr.ValueWritten rules s min)
      fun s r e => e.ClosesValue s min r := by
  intro s e ts c r w hl hr hne hend
  cases w with
  | @ifExpr stmt ts hs =>
    obtain ⟨c', h1, k1, r1⟩ := ifStmt_complete hn ho hs hl hr hne hend.ends
    refine ⟨c', value_ok.2 (.inl ⟨?_, stmt, c', h1, ?_, rfl⟩), k1, r1⟩
    · exact (ifStmt_ok.1 h1).1
    · rw [k1.spanOf hs.begin.ne_nil]
  | @whenExpr stmt ts hs =>
    obtain ⟨c', h1, k1, r1⟩ := whenStmt_complete hn ho hs hl hr hne trivial
    refine ⟨c', value_ok.2 (.inr (.inl ⟨?_, stmt, c', h1, ?_, rfl⟩)), k1, r1⟩
    · exact (whenStmt_ok.1 h1).1
    · rw [k1.spanOf hs.begin.ne_nil]
  | expr he =>
    obtain ⟨c', h1, k1, r1⟩ := expr_complete hn ho min he hl hr hne
      ⟨hend.ends, hend.stops he.not_control⟩
    have hopens := he.opens
    obtain ⟨t, us, rfl, -⟩ := hopens.begin
    have hword := hopens.word t rfl
    refine ⟨c', value_ok.2 (.inr (.inr ⟨fun hk => ?_, fun hk => ?_, h1⟩)), k1, r1⟩ <;>
    · rw [k1.here_eq] at hk
      simpa [Keyword.isSoft, literalWord?] using hword _ hk

end Parser

end Script
