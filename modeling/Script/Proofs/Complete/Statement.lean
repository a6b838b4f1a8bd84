import Script.Proofs.Complete.Control
import Script.Proofs.Sound.Statement

/-!
What is written as the rules for declarations and statements say is read by their parsers, and so
are whole programs. The bytes of a text bound the levels of nesting, so there are always enough.
-/
namespace Script

variable {rules : Rules} {s : Surroundings} {ts r : List Token}

namespace Parser

variable {nested : Nested} {k : Nat} {c c' : Cursor}

theorem moreNames_complete {ns : List Name} (w : Name.MoreWritten ns ts) (hl : Light k ts)
    (hr : c.rest = ts ++ r) (hne : r ≠ []) (hd : Dotless r)
    (hcomma : ∀ t ∈ r.head?, t.kind ≠ .comma) :
    ∃ c', collect (do if ← skip .comma then return some (← name) else return none) s c =
        .ok ns c' ∧ c.Takes ts c' ∧ c'.rest = r := by
  have hlen : ns.length ≤ ts.length := by
    clear hl hr
    induction w with
    | nil => simp
    | cons _ _ _ ih =>
      simp only [List.length_append, List.length_cons]
      omega
  suffices ∃ c', Items _ s c ns c' ∧ c.Takes ts c' ∧ c'.rest = r by
    obtain ⟨c', hi, k1, r1⟩ := this
    exact ⟨c', collect_of_items hi (Nat.lt_of_le_of_lt hlen (rest_length hr hne)), k1, r1⟩
  clear hlen
  induction w generalizing c with
  | nil =>
    rw [List.nil_append] at hr
    refine ⟨c, .done (useSub_ok.2 (.inr ⟨hcomma c.here ?_, rfl, rfl⟩)), .refl c, hr⟩
    rw [← hr]
    rfl
  | @cons t n ns ts us ht hn hns ih =>
    have hr : c.rest = t :: (ts ++ (us ++ r)) := by simpa using hr
    have hdot : Dotless (us ++ r) := by
      cases hns with
      | nil => exact hd
      | cons hk => exact not_continues (.inl (by simp [hk]))
    obtain ⟨rfl, k1, r1⟩ := Cursor.next hr (by simp [hne])
    obtain ⟨c1, h1, k2, r2⟩ := name_complete (s := s) hn hl.drop.left r1 (by simp [hne]) hdot
    obtain ⟨c2, h2, k3, r3⟩ := ih hl.drop.right r2
    exact ⟨c2, .more (useSub_ok.2 (.inl ⟨ht, n, c1, h1, rfl, rfl⟩)) h2, k1.cons (k2.trans k3), r3⟩

theorem useSubs_complete : Complete k useSubs (fun _ => UseDecl.SubsWritten) fun _ r ns =>
    Dotless r ∧ if ns.isEmpty then ¬ Continues .colon r else ∀ t ∈ r.head?, t.kind ≠ .comma := by
  intro s ns ts c r w hl hr hne hend
  cases w with
  | nil =>
    rw [List.nil_append] at hr
    refine ⟨c, useSubs_ok.2 (.inr ⟨?_, rfl, rfl⟩), .refl c, hr⟩
    rw [← Bool.not_eq_true, ← Cursor.continues_rest, hr]
    exact hend.2
  | @cons t n ns ts us ht hn hns =>
    have hr : c.rest = t :: (ts ++ (us ++ r)) := by simpa using hr
    have hdot : Dotless (us ++ r) := by
      cases hns with
      | nil => exact hend.1
      | cons hk => exact not_continues (.inl (by simp [hk]))
    obtain ⟨rfl, k1, r1⟩ := Cursor.next hr (by simp [hne])
    obtain ⟨c1, h1, k2, r2⟩ := name_complete (s := s) hn hl.drop.left r1 (by simp [hne]) hdot
    obtain ⟨c2, h2, k3, r3⟩ := moreNames_complete (s := s) hns hl.drop.right r2 hne hend.1 hend.2
    exact ⟨c2, useSubs_ok.2 (.inl ⟨ht, n, c1, h1, ns, c2, h2, rfl, rfl⟩), k1.cons (k2.trans k3), r3⟩

theorem useDecl_complete : Complete k useDecl (fun _ => UseDecl.Written)
    fun _ r d => d.EndsBefore r := by
  intro s d ts c r w hl hr hne hend
  cases w with
  | @mk t ts us path subs ht hp hs =>
    have hr : c.rest = t :: (ts ++ (us ++ r)) := by simpa using hr
    have hdot : Dotless (us ++ r) := by
      cases hs with
      | nil => exact hend.1
      | cons hk => exact not_continues (.inl (by simp [continuesWith_kind hk]))
    obtain ⟨rfl, k1, r1⟩ := Cursor.next hr (by simp [hne])
    obtain ⟨c1, h1, k2, r2⟩ := name_complete (s := s) hp hl.drop.left r1 (by simp [hne]) hdot
    obtain ⟨c2, h2, k3, r3⟩ := useSubs_complete (s := s) hs hl.drop.right r2 hne hend
    have hk := k1.cons (k2.trans k3)
    refine ⟨c2, useDecl_ok.2 ⟨ht, path, c1, h1, subs, c2, h2, ?_, rfl⟩, hk, r3⟩
    rw [hk.spanOf (by simp)]

theorem importDecl_complete (hn : nested.Complete k rules) (ho : rules.Opening) :
    Complete (k + 1) (importDecl nested) (fun _ => ImportDecl.Written rules)
      fun _ r d => d.args.isNone → Dotless r ∧ ¬ Continues .openParen r := by
  intro s d ts c r w hl hr hne hend
  cases w with
  | @plain t ts path ht hp =>
    obtain ⟨rfl, k1, r1⟩ := Cursor.next (r := ts ++ r) hr (by simp [hne])
    obtain ⟨c1, h1, k2, r2⟩ := name_complete (s := s) hp hl.drop r1 hne (hend rfl).1
    have hk := k1.cons k2
    have hargs : importArgs nested s c1 = .ok none c1 := by
      refine importArgs_ok.2 (.inr ⟨?_, rfl, rfl⟩)
      rw [← Bool.not_eq_true, ← Cursor.continues_rest, r2]
      exact (hend rfl).2
    refine ⟨c1, importDecl_ok.2 ⟨ht, path, c1, h1, none, c1, hargs, ?_, rfl⟩, hk, r2⟩
    rw [hk.spanOf (by simp)]
  | @call t u ts us path args ht hp hu ha =>
    have hr : c.rest = t :: (ts ++ (u :: us ++ r)) := by simpa using hr
    obtain ⟨rfl, k1, r1⟩ := Cursor.next hr (by simp)
    obtain ⟨c1, h1, k2, r2⟩ := name_complete (s := s) hp hl.drop.left r1 (by simp)
      (not_continues (.inl (by simp [continuesWith_kind hu])))
    obtain ⟨c2, h2, k3, r3⟩ := arguments_complete (s := s) hn ho (continuesWith_kind hu) ha
      hl.drop.right r2 hne
    have hk := k1.cons (k2.trans k3)
    have hargs : importArgs nested s c1 = .ok (some args) c2 :=
      importArgs_ok.2 (.inl ⟨k3.here_eq ▸ hu, args, c2, h2, rfl, rfl⟩)
    refine ⟨c2, importDecl_ok.2 ⟨ht, path, c1, h1, some args, c2, hargs, ?_, rfl⟩, hk, r3⟩
    rw [hk.spanOf (by simp)]

theorem param_complete : Complete k param (fun _ => Param.Written) fun _ r p => p.EndsBefore r := by
  intro s p ts c r w hl hr hne hend
  cases w with
  | @mk t ts name type hn ht =>
    obtain ⟨rfl, k1, r1⟩ := Cursor.next (r := ts ++ r) hr (by simp [hne])
    obtain ⟨c1, h1, k2, r2⟩ := annotation_complete (s := s) ht hl.drop r1 hne hend
    have hk := k1.cons k2
    refine ⟨c1, param_ok.2 ⟨hn.kind, type, c1, h1, ?_, rfl⟩, hk, r2⟩
    rw [hk.spanOf (by simp), hn.eq]

theorem property_complete : Complete k property (fun _ => Property.Written)
    fun _ r p => p.EndsBefore r := by
  intro s p ts c r w hl hr hne hend
  cases w with
  | @mk ts us name type hn ht =>
    rw [List.append_assoc] at hr
    have hdot : Dotless (us ++ r) := by
      cases ht with
      | none => exact hend.1 rfl
      | some hcont =>
        cases us with
        | nil => obtain ⟨t, ht, -⟩ := hcont; cases ht
        | cons u us =>
          obtain ⟨t, ht, hk⟩ := hcont
          obtain rfl := Option.some.inj ht
          exact not_continues (.inl (by simp [continuesWith_kind hk]))
    obtain ⟨c1, h1, k1, r1⟩ := name_complete (s := s) hn hl.left hr (by simp [hne]) hdot
    obtain ⟨c2, h2, k2, r2⟩ := annotation_complete (s := s) ht hl.right r1 hne hend.2
    have hk := k1.trans k2
    refine ⟨c2, property_ok.2 ⟨name, c1, h1, type, c2, h2, ?_, rfl⟩, hk, r2⟩
    rw [hk.spanOf (by simp [hn.ne_nil])]

theorem fnBody_complete (hn : nested.Complete k rules) (ho : rules.Opening) :
    Complete (k + 1) (fnBody nested) (fun s => FnBody.Written rules s)
      fun s r b => b.EndsBefore s r := by
  intro s b ts c r w hl hr hne hend
  cases w with
  | @expr t ts e ht he =>
    obtain ⟨rfl, k1, r1⟩ := Cursor.next (r := ts ++ r) hr (by simp [hne])
    obtain ⟨c', h1, k2, r2⟩ := hn.expr _ he hl.tail r1 hne hend
    exact ⟨c', fnBody_ok.2 (.inl ⟨ht, e, c', h1, rfl, rfl⟩), k1.cons k2, r2⟩
  | @block ts body hb =>
    obtain ⟨c', h1, k1, r1⟩ := block_complete hn ho (s := s) hb hl hr hne trivial
    obtain ⟨u, us, rfl, hu⟩ := hb.brace
    have hassign : c.here.kind ≠ .assign := by rw [k1.here_eq, hu]; decide
    exact ⟨c', fnBody_ok.2 (.inr ⟨hassign, body, c', h1, rfl, rfl⟩), k1, r1⟩

/-- The body of a function begins with `=` or a brace. -/
theorem fnBody_apart {b : FnBody} (w : b.Written rules s ts) (us : List Token) :
    ∀ o, TypeRef.AnnotationEnds (ts ++ us) o := by
  intro o
  cases w with
  | expr ht => exact (apart_of_kind (by rw [ht]; decide)).annotated o
  | block hb =>
    obtain ⟨t, vs, rfl, ht⟩ := hb.brace
    cases o with
    | none => exact not_continues (.inl (by simp [ht]))
    | some t =>
      simp only [TypeRef.AnnotationEnds, TypeRef.EndsBefore]
      split
      · trivial
      · exact not_continues (.inl (by simp [ht]))

theorem fnDecl_complete (hn : nested.Complete k rules) (ho : rules.Opening) :
    Complete (k + 1) (fnDecl nested) (fun s => FnDecl.Written rules s)
      fun s r d => d.body.EndsBefore s r := by
  intro s d ts c r w hl hr hne hend
  cases w with
  | @mk t u ts us vs ws name params result body ht hname hu hp hres hb =>
    have hr : c.rest = t :: (ts ++ (u :: us ++ (vs ++ (ws ++ r)))) := by simpa using hr
    have hlparams : Light (k + 1 + 1) (u :: us) := by
      refine Light.succ (@Light.left _ _ (vs ++ ws) ?_)
      simpa using hl.drop.right
    obtain ⟨rfl, k1, r1⟩ := Cursor.next hr (by simp)
    obtain ⟨c1, h1, k2, r2⟩ := name_complete (s := s) hname hl.drop.left r1 (by simp)
      (not_continues (.inl (by rw [hu]; decide)))
    obtain ⟨c2, h2, k3, r3⟩ := bracketed_complete (s := s) param_complete Param.Written.begin
      ⟨by decide, by decide⟩ (fun h hp => h.param hp) hu hp hlparams r2 (by simp [hne])
    obtain ⟨c3, h3, k4, r4⟩ := annotation_complete (s := s) hres hl.drop.right.drop.right.left r3
      (by simp [hne]) (fnBody_apart hb r result)
    obtain ⟨c4, h4, k5, r5⟩ := fnBody_complete hn ho hb hl.drop.right.drop.right.right r4 hne hend
    have hk := k1.cons (k2.trans (k3.trans (k4.trans k5)))
    refine ⟨c4, fnDecl_ok.2 ⟨ht, name, c1, h1, params, c2, h2, result, c3, h3, body, c4, h4, ?_,
      rfl⟩, by simpa using hk, r5⟩
    rw [hk.spanOf (by simp)]
    simp

theorem nodeEntry_complete (hn : nested.Complete k rules) (ho : rules.Opening) :
    Complete k (nodeEntry nested) (fun s => Statement.EntryWritten rules s)
      fun s r st => st.EntryEndsBefore s r := by
  intro s st ts c r w hl hr hne hend
  cases w with
  | @ifStmt stmt ts hs =>
    obtain ⟨c', h1, k1, r1⟩ := ifStmt_complete hn ho hs hl.succ hr hne hend
    refine ⟨c', nodeEntry_ok.2 (.inl ⟨(ifStmt_ok.1 h1).1, stmt, c', h1, ?_, rfl⟩), k1, r1⟩
    rw [k1.spanOf hs.begin.ne_nil]
  | @pair e ts he hp =>
    obtain ⟨c', h1, k1, r1⟩ := hn.expr _ he hl hr hne hend
    refine ⟨c', nodeEntry_ok.2 (.inr ⟨fun hk => ?_, e, c', h1, hp, rfl, rfl⟩), k1, r1⟩
    have hopens := ho.expr he
    obtain ⟨t, us, rfl, -⟩ := hopens.begin
    rw [k1.here_eq] at hk
    simpa [Keyword.isSoft, literalWord?] using hopens.word t rfl _ hk

theorem nodeBody_complete (hn : nested.Complete k rules) (ho : rules.Opening) :
    Complete (k + 1) (nodeBody nested) (fun _ => NodeDecl.BodyWritten rules)
      fun _ r o => o.isNone → ¬ Continues .openBrace r := by
  intro s o ts c r w hl hr hne hend
  cases w with
  | none =>
    rw [List.nil_append] at hr
    refine ⟨c, nodeBody_ok.2 (.inr ⟨?_, rfl, rfl⟩), .refl c, hr⟩
    rw [← Bool.not_eq_true, ← Cursor.continues_rest, hr]
    exact hend rfl
  | @some t ts entries ht he =>
    obtain ⟨c', h1, k1, r1⟩ := bracketed_complete (s := s) (nodeEntry_complete hn ho)
      (Statement.EntryWritten.begin ho) ⟨by decide, by decide⟩ (fun h hst => h.entry hst)
      (continuesWith_kind ht) he hl hr hne
    exact ⟨c', nodeBody_ok.2 (.inl ⟨k1.here_eq ▸ ht, entries, c', h1, rfl, rfl⟩), k1, r1⟩

theorem nodeDecl_complete (hn : nested.Complete k rules) (ho : rules.Opening) :
    Complete (k + 1) (nodeDecl nested) (fun _ => NodeDecl.Written rules)
      fun _ r d => d.body.isNone → ¬ Continues .openBrace r := by
  intro s d ts c r w hl hr hne hend
  cases w with
  | @mk t u ts us vs name props body ht hname hu hp hb =>
    have hr : c.rest = t :: (ts ++ (u :: us ++ (vs ++ r))) := by simpa using hr
    have hlprops : Light (k + 1 + 1) (u :: us) := by
      refine Light.succ (@Light.left _ _ vs ?_)
      simpa using hl.drop.right
    obtain ⟨rfl, k1, r1⟩ := Cursor.next hr (by simp)
    obtain ⟨c1, h1, k2, r2⟩ := name_complete (s := s) hname hl.drop.left r1 (by simp)
      (not_continues (.inl (by rw [hu]; decide)))
    obtain ⟨c2, h2, k3, r3⟩ := bracketed_complete (s := s) property_complete
      Property.Written.begin ⟨by decide, by decide⟩ (fun h hp => h.property hp) hu hp hlprops r2
      (by simp [hne])
    obtain ⟨c3, h3, k4, r4⟩ := nodeBody_complete hn ho (s := s) hb hl.drop.right.drop.right r3 hne
      hend
    have hk := k1.cons (k2.trans (k3.trans k4))
    refine ⟨c3, nodeDecl_ok.2 ⟨ht, name, c1, h1, props, c2, h2, body, c3, h3, ?_, rfl⟩,
      by simpa using hk, r4⟩
    rw [hk.spanOf (by simp)]
    simp

theorem fieldDecl_complete : Complete k fieldDecl (fun _ => FieldDecl.Written)
    fun _ r d => d.EndsBefore r := by
  intro s d ts c r w hl hr hne hend
  cases w with
  | @mk t u ts name type hn hu ht =>
    obtain ⟨rfl, k1, r1⟩ := Cursor.next (r := u :: (ts ++ r)) hr (by simp)
    obtain ⟨rfl, k2, r2⟩ := Cursor.next r1 (by simp [hne])
    obtain ⟨c1, h1, k3, r3⟩ := typeRef_complete (s := s) ht hl.drop.drop r2 hne hend
    have hk := k1.cons (k2.cons k3)
    refine ⟨c1, fieldDecl_ok.2 ⟨hn.kind, hu, type, c1, h1, ?_, rfl⟩, hk, r3⟩
    rw [hk.spanOf (by simp), hn.eq]

theorem typeDecl_complete : Complete (k + 1) typeDecl (fun _ => TypeDecl.Written)
    fun _ _ _ => True := by
  intro s d ts c r w hl hr hne _
  cases w with
  | @mk t u v ts name fields ht hn hv hf =>
    obtain ⟨rfl, k1, r1⟩ := Cursor.next (r := u :: (v :: ts ++ r)) hr (by simp)
    obtain ⟨rfl, k2, r2⟩ := Cursor.next r1 (by simp)
    obtain ⟨c1, h1, k3, r3⟩ := bracketed_complete (s := s) fieldDecl_complete
      FieldDecl.Written.begin ⟨by decide, by decide⟩ (fun h hd => h.fieldDecl hd) hv hf
      hl.drop.drop r2 hne
    have hk := k1.cons (k2.cons k3)
    refine ⟨c1, typeDecl_ok.2 ⟨ht, hn.kind, fields, c1, h1, ?_, rfl⟩, hk, r3⟩
    rw [hk.spanOf (by simp), hn.eq]

theorem enumMember_complete (hn : nested.Complete k rules) :
    Complete (k + 1) (enumMember nested) (fun s => EnumMember.Written rules s)
      fun s r m => m.EndsBefore s r := by
  intro s m ts c r w hl hr hne hend
  cases w with
  | @plain t name hname =>
    obtain ⟨rfl, k1, r1⟩ := Cursor.next (r := r) hr hne
    have hassign : c.advance.here.kind ≠ .assign := by
      refine hend c.advance.here ?_
      rw [← r1]
      rfl
    refine ⟨_, enumMember_ok.2 ⟨hname.kind, .inr ⟨hassign, ?_, rfl⟩⟩, k1, r1⟩
    rw [k1.spanOf (by simp), hname.eq]
  | @assigned t u ts name value hname hu hv =>
    obtain ⟨rfl, k1, r1⟩ := Cursor.next (r := u :: (ts ++ r)) hr (by simp)
    obtain ⟨rfl, k2, r2⟩ := Cursor.next r1 (by simp [hne])
    obtain ⟨c1, h1, k3, r3⟩ := hn.expr _ hv hl.tail.drop r2 hne hend
    have hk := k1.cons (k2.cons k3)
    refine ⟨c1, enumMember_ok.2 ⟨hname.kind, .inl ⟨hu, value, c1, h1, ?_, rfl⟩⟩, hk, r3⟩
    rw [hk.spanOf (by simp), hname.eq]

theorem enumDecl_complete (hn : nested.Complete k rules) :
    Complete (k + 1) (enumDecl nested) (fun _ => EnumDecl.Written rules)
      fun _ _ _ => True := by
  intro s d ts c r w hl hr hne _
  cases w with
  | @mk t u v ts name members ht hname hv hm =>
    obtain ⟨rfl, k1, r1⟩ := Cursor.next (r := u :: (v :: ts ++ r)) hr (by simp)
    obtain ⟨rfl, k2, r2⟩ := Cursor.next r1 (by simp)
    obtain ⟨c1, h1, k3, r3⟩ := bracketed_complete (s := s) (enumMember_complete hn)
      EnumMember.Written.begin ⟨by decide, by decide⟩ (fun h hm => h.enumMember hm) hv hm
      hl.drop.drop.succ r2 hne
    have hk := k1.cons (k2.cons k3)
    refine ⟨c1, enumDecl_ok.2 ⟨ht, hname.kind, members, c1, h1, ?_, rfl⟩, hk, r3⟩
    rw [hk.spanOf (by simp), hname.eq]

/-- A word that begins an expression introduces no statement, if what follows it is no word and no
brace on its line. -/
theorem leadWord_none {t : Token} {next : Option Token}
    (hword : ∀ w, t.keyword? = some w → w.isSoft = true ∨ (literalWord? w).isSome = true)
    (hnext : ∀ u ∈ next, continuesWith .ident u = false ∧ continuesWith .openBrace u = false) :
    leadWord t next = none := by
  unfold leadWord
  cases hk : t.keyword? with
  | none => rfl
  | some w =>
    have hw := hword w hk
    cases next with
    | none => cases w <;> simp [Keyword.isSoft, literalWord?] at hw ⊢
    | some u =>
      obtain ⟨hi, hb⟩ := hnext u rfl
      cases w <;> simp [Keyword.isSoft, literalWord?, hi, hb] at hw ⊢

theorem leadWord_none_of_opens (h : Opens ts) (hr : c.rest = ts ++ r)
    (hend : ∀ u ∈ r.head?, continuesWith .ident u = false ∧ continuesWith .openBrace u = false) :
    leadWord c.here c.next? = none := by
  obtain ⟨t, us, rfl, -⟩ := h.begin
  obtain ⟨rfl, -⟩ := Cursor.rest_eq_cons hr
  have hnext := Cursor.next?_eq hr
  by_cases hk : c.here.kind = .ident
  · refine leadWord_none (h.word _ rfl) fun u hu => ?_
    rw [hnext] at hu
    cases us with
    | nil => exact hend u hu
    | cons v vs =>
      obtain rfl := Option.some.inj hu
      have hv := h.after _ rfl hk v rfl
      exact ⟨by simp [continuesWith, hv.1], by simp [continuesWith, hv.2.2]⟩
  · simp [leadWord, Token.keyword?_of_kind hk]

theorem not_continuesWith {t : Token} {kind : TokenKind} (h : ¬ Continues kind (t :: r)) :
    continuesWith kind t = false := by
  rw [← Bool.not_eq_true]
  exact fun hk => h ⟨t, rfl, hk⟩

/-- A declaration that a soft keyword introduces has the shape that the keyword needs. -/
theorem next?_continues {kind : TokenKind} (hr : c.rest = ts ++ r) (h : Continues kind ts.tail) :
    (c.next?.map (continuesWith kind)).getD false = true := by
  obtain ⟨u, hu, hk⟩ := h
  match ts, hu with
  | t :: v :: vs, hu =>
    obtain rfl := Option.some.inj hu
    rw [Cursor.next?_eq hr]
    exact hk

theorem exprStatement_complete (hn : nested.Complete k rules) (ho : rules.Opening) {e : Expr}
    (w : e.Written rules s .group ts) (hl : Light (k + 1) ts) (hr : c.rest = ts ++ r)
    (hne : r ≠ []) (hend : e.EndsStatement s r) :
    ∃ c', exprStatement nested s c = .ok (.expr e) c' ∧ c.Takes ts c' ∧ c'.rest = r := by
  obtain ⟨c', h1, k1, r1⟩ := expr_complete hn ho .group w hl hr hne hend.closes
  have hassign : c'.here.kind ≠ .assign := by
    refine hend.assign c'.here ?_
    rw [← r1]
    rfl
  exact ⟨c', exprStatement_ok.2 ⟨e, c', h1, .inr ⟨hassign, rfl, rfl⟩⟩, k1, r1⟩

theorem assign_complete (hn : nested.Complete k rules) (ho : rules.Opening) {target : Name}
    {value : Expr} {t : Token} {us : List Token} (hname : target.WrittenOperand ts)
    (ht : t.kind = .assign) (hv : rules.value s .group value us)
    (hl : Light (k + 1) (ts ++ t :: us)) (hr : c.rest = ts ++ (t :: us ++ r)) (hne : r ≠ [])
    (hend : value.ClosesValue s .group r) :
    ∃ c', exprStatement nested s c = .ok (.assign target value) c' ∧ c.Takes (ts ++ t :: us) c' ∧
      c'.rest = r := by
  have w : Expr.Written rules s .group ⟨.name target, target.span⟩ ts := .operand (.name hname)
  have hcloses : Expr.Closes s .group (t :: us ++ r) ⟨.name target, target.span⟩ :=
    ⟨not_continues (.inl (by rw [ht]; decide)), stops_of_operator (by rw [ht]; rfl) _⟩
  obtain ⟨c1, h1, k1, r1⟩ := expr_complete hn ho .group w hl.left hr (by simp) hcloses
  obtain ⟨rfl, k2, r2⟩ := Cursor.next (r := us ++ r) r1 (by simp [hne])
  obtain ⟨c2, h2, k3, r3⟩ := hn.value _ hv hl.right.tail r2 hne hend
  exact ⟨c2, exprStatement_ok.2 ⟨_, c1, h1, .inl ⟨ht, target, rfl, value, c2, h2, rfl, rfl⟩⟩,
    k1.trans (k2.cons k3), r3⟩

theorem statementKind_complete (hn : nested.Complete k rules) (ho : rules.Opening)
    {kind : StatementKind} {span : Span} (w : kind.Written rules s ts) (hl : Light (k + 1) ts)
    (hr : c.rest = ts ++ r) (hne : r ≠ []) (hend : Statement.EndsBefore s r ⟨kind, span⟩) :
    ∃ c', statementKind nested s c = .ok kind c' ∧ c.Takes ts c' ∧ c'.rest = r := by
  rw [statementKind, statementWord?_bind]
  cases w with
  | @modDecl t ts us name body ht hcont hname hb =>
    have hcont : Continues .ident (t :: (ts ++ us)).tail := hcont.append us
    have hnext := next?_continues hr hcont
    obtain ⟨u, vs, rfl, hu⟩ := hb.brace
    obtain ⟨rfl, k1, r1⟩ := Cursor.next (r := ts ++ (u :: vs ++ r)) (by simpa using hr) (by simp)
    obtain ⟨c1, h1, k2, r2⟩ := name_complete (s := s) hname hl.drop.left r1 (by simp)
      (not_continues (.inl (by rw [hu]; decide)))
    obtain ⟨c2, h2, k3, r3⟩ := block_complete hn ho (s := s) hb hl.drop.right r2 hne trivial
    refine ⟨c2, ?_, k1.cons (k2.trans k3), r3⟩
    simp only [leadWord, ht, hnext, if_true]
    exact modDecl_ok.2 ⟨name, c1, h1, body, c2, h2, rfl, rfl⟩
  | @useDecl d ts hd hcont =>
    obtain ⟨c', h1, k1, r1⟩ := useDecl_complete (s := s) hd hl hr hne hend
    refine ⟨c', ?_, k1, r1⟩
    simp only [leadWord, (useDecl_ok.1 h1).1, next?_continues hr hcont, if_true]
    exact bind_ok.2 ⟨d, c', h1, rfl⟩
  | @importDecl d ts hd hcont =>
    obtain ⟨c', h1, k1, r1⟩ := importDecl_complete hn ho (s := s) hd hl hr hne hend
    refine ⟨c', ?_, k1, r1⟩
    simp only [leadWord, (importDecl_ok.1 h1).1, next?_continues hr hcont, if_true]
    exact bind_ok.2 ⟨d, c', h1, rfl⟩
  | @varDecl d ts hd =>
    obtain ⟨c', h1, k1, r1⟩ := varDecl_complete hn hd hl hr hne hend
    refine ⟨c', ?_, k1, r1⟩
    obtain ⟨binding, hw, -⟩ := varDecl_ok.1 h1
    cases binding <;>
    · simp only [leadWord, hw, BindingKind.keyword]
      exact bind_ok.2 ⟨d, c', h1, rfl⟩
  | @fnDecl d ts hd =>
    obtain ⟨c', h1, k1, r1⟩ := fnDecl_complete hn ho hd hl hr hne hend
    refine ⟨c', ?_, k1, r1⟩
    simp only [leadWord, (fnDecl_ok.1 h1).1]
    exact bind_ok.2 ⟨d, c', h1, rfl⟩
  | @nodeDecl d ts hd hcont =>
    obtain ⟨c', h1, k1, r1⟩ := nodeDecl_complete hn ho (s := s) hd hl hr hne hend
    refine ⟨c', ?_, k1, r1⟩
    simp only [leadWord, (nodeDecl_ok.1 h1).1, next?_continues hr hcont, if_true]
    exact bind_ok.2 ⟨d, c', h1, rfl⟩
  | @assign target t ts us value hname ht hv =>
    have hr : c.rest = ts ++ (t :: us ++ r) := by simpa using hr
    obtain ⟨c', h1, k1, r1⟩ := assign_complete hn ho hname ht hv hl hr hne hend
    refine ⟨c', ?_, k1, r1⟩
    have hoperand : Expr.OperandWritten rules s ⟨.name target, target.span⟩ ts := .name hname
    have hopens := hoperand.opens
    have hlead := leadWord_none_of_opens hopens hr fun u hu => by
      obtain rfl := Option.some.inj hu
      simp [continuesWith, ht]
    simp only [hlead]
    exact h1
  | @ifStmt stmt ts hs =>
    obtain ⟨c', h1, k1, r1⟩ := ifStmt_complete hn ho hs hl hr hne hend
    refine ⟨c', ?_, k1, r1⟩
    simp only [leadWord, (ifStmt_ok.1 h1).1]
    exact bind_ok.2 ⟨stmt, c', h1, rfl⟩
  | @forStmt stmt ts hs =>
    obtain ⟨c', h1, k1, r1⟩ := forStmt_complete hn ho hs hl hr hne trivial
    refine ⟨c', ?_, k1, r1⟩
    simp only [leadWord, (forStmt_ok.1 h1).1]
    exact bind_ok.2 ⟨stmt, c', h1, rfl⟩
  | @whenStmt stmt ts hs =>
    obtain ⟨c', h1, k1, r1⟩ := whenStmt_complete hn ho hs hl hr hne trivial
    refine ⟨c', ?_, k1, r1⟩
    simp only [leadWord, (whenStmt_ok.1 h1).1]
    exact bind_ok.2 ⟨stmt, c', h1, rfl⟩
  | @uiBlock t ts body ht hcont hb =>
    have hnext := next?_continues (show c.rest = (t :: ts) ++ r from hr) hcont
    obtain ⟨rfl, k1, r1⟩ := Cursor.next (r := ts ++ r) hr (by simp [hne])
    obtain ⟨c', h1, k2, r2⟩ := block_complete hn ho (s := s) hb hl.drop r1 hne trivial
    refine ⟨c', ?_, k1.cons k2, r2⟩
    simp only [leadWord, ht, hnext, if_true, advance_bind]
    exact bind_ok.2 ⟨body, c', h1, rfl⟩
  | @styleBlock t ts body ht hcont hb =>
    have hnext := next?_continues (show c.rest = (t :: ts) ++ r from hr) hcont
    obtain ⟨rfl, k1, r1⟩ := Cursor.next (r := ts ++ r) hr (by simp [hne])
    obtain ⟨c', h1, k2, r2⟩ := block_complete hn ho (s := s) hb hl.drop r1 hne trivial
    refine ⟨c', ?_, k1.cons k2, r2⟩
    simp only [leadWord, ht, hnext, if_true, advance_bind]
    exact bind_ok.2 ⟨body, c', h1, rfl⟩
  | @typeDecl d ts hd hcont =>
    obtain ⟨c', h1, k1, r1⟩ := typeDecl_complete (s := s) hd hl hr hne trivial
    refine ⟨c', ?_, k1, r1⟩
    simp only [leadWord, (typeDecl_ok.1 h1).1, next?_continues hr hcont, if_true]
    exact bind_ok.2 ⟨d, c', h1, rfl⟩
  | @enumDecl d ts hd hcont =>
    obtain ⟨c', h1, k1, r1⟩ := enumDecl_complete hn (s := s) hd hl hr hne trivial
    refine ⟨c', ?_, k1, r1⟩
    simp only [leadWord, (enumDecl_ok.1 h1).1, next?_continues hr hcont, if_true]
    exact bind_ok.2 ⟨d, c', h1, rfl⟩
  | @breakStmt t ht =>
    obtain ⟨rfl, k1, r1⟩ := Cursor.next (r := r) hr hne
    refine ⟨_, ?_, k1, r1⟩
    simp only [leadWord, ht]
    rfl
  | @expr e ts he =>
    obtain ⟨c', h1, k1, r1⟩ := exprStatement_complete hn ho he hl hr hne hend
    refine ⟨c', ?_, k1, r1⟩
    have hlead := leadWord_none_of_opens he.opens hr fun u hu => by
      have hapart := hend.apart
      cases r with
      | nil => cases hu
      | cons v vs =>
        obtain rfl := Option.some.inj hu
        exact ⟨not_continuesWith hapart.ident, not_continuesWith hapart.brace⟩
    simp only [hlead]
    exact h1

theorem statement_complete (hn : nested.Complete k rules) (ho : rules.Opening) :
    Complete (k + 1) (statement nested) (fun s => Statement.Written rules s)
      fun s r st => st.EndsBefore s r := by
  intro s st ts c r w hl hr hne hend
  cases w with
  | @mk kind ts hk =>
    obtain ⟨c', h1, k1, r1⟩ := statementKind_complete hn ho hk hl hr hne hend
    refine ⟨c', statement_ok.2 ⟨kind, c', h1, ?_, rfl⟩, k1, r1⟩
    rw [k1.spanOf hk.begin.ne_nil]

/-- The parsers of one level read whatever takes fewer bytes than the level, however deeply it is
nested. -/
theorem level_complete : ∀ k n, (Nested.level k).Complete k (Rules.level n)
  | 0, n => by
    refine ⟨fun min s e ts c r _ hl => ?_, fun min s e ts c r _ hl => ?_,
      fun s st ts c r _ hl => ?_⟩ <;>
    · have hw := hl.weight
      omega
  | k + 1, 0 =>
    ⟨fun _ _ _ _ _ _ w => False.elim w, fun _ _ _ _ _ _ w => False.elim w,
      fun _ _ _ _ _ w => False.elim w⟩
  | k + 1, n + 1 =>
    have hn := level_complete k n
    have ho := Rules.level_opening n
    ⟨fun min => expr_complete hn ho min, fun min => value_complete hn ho min,
      statement_complete hn ho⟩

end Parser

/-- What tokens are written as is read from them. -/
theorem Program.read_of_written {ts : List Token} {last : Token} {p : Program}
    (hsize : ∀ t ∈ ts, 0 < t.text.utf8ByteSize) (h : p.Written (ts ++ [last])) :
    ∃ c, Program.read (Cursor.start ts last) = .ok p c := by
  obtain ⟨⟨n, w⟩, hspan⟩ := h
  generalize hc : Cursor.start ts last = c
  have hrest : c.rest = (ts ++ [last]) ++ [] := by
    rw [← hc, Cursor.start_rest, List.append_nil]
  have hlight : Light (c.weight + 1) (ts ++ [last]).dropLast := by
    rw [List.dropLast_concat]
    refine ⟨hsize, ?_⟩
    rw [Cursor.weight, hrest, List.append_nil, Token.weight_append]
    omega
  obtain ⟨c', us, t, hus, ht, hlisted, -, hrest'⟩ := Parser.listed_complete
    (Parser.level_complete (c.weight + 1) n).statement (Rules.level_opening n).statement (by decide)
    (by decide) (fun h hst => h.statement hst) w hlight hrest
  have hlen : p.statements.length < c.rest.length := by
    rw [hrest, List.append_nil]
    exact Parser.ListWritten.length (Rules.level_opening n).statement w
  refine ⟨c', Parser.programWithin_ok.2 ⟨p.statements, Parser.separated_of_listed hlisted hlen, ?_⟩⟩
  obtain rfl : last = t := by simpa using (List.append_inj' hus rfl).2
  have hstart : c.here.start = (((ts ++ [last]).head?).map Token.start).getD 0 := by
    rw [← hc]
    cases ts <;> rfl
  rw [(Cursor.rest_eq_cons hrest').1, hstart]
  obtain ⟨statements, span⟩ := p
  simpa using hspan.symm

/-- A text is read as a program exactly if its tokens are written as that program. -/
theorem Program.parse_iff {source : String} {p : Program} :
    Program.parse source = .ok p ↔
      ∃ ts last, Lexed.ofString 0 source = ⟨ts, .ok last⟩ ∧ p.Written (ts ++ [last]) := by
  refine ⟨Program.written_of_parse, ?_⟩
  rintro ⟨ts, last, hl, w⟩
  obtain ⟨c, hread⟩ := read_of_written (Lexed.tokens_size hl).2 w
  simp only [Program.parse, Program.ofLexed, hl, hread]

end Script
