import Script.Proofs.Sound.Expression
import Script.Rules.Control

/-!
What the parsers of `if`, `for` and `when` take is written as the rules say.
-/
namespace Script

variable {rules : Rules} {s : Surroundings}

namespace Parser

variable {nested : Nested} {c c' : Cursor}

theorem condition_sound (hn : nested.Sound rules) :
    Sound (condition nested) (fun s => rules.expr s.head .group) fun _ _ _ => True := by
  intro s c e c' hc h
  obtain ⟨ts, k, w, -⟩ := hn.expr _ hc (condition_ok.1 h)
  exact ⟨ts, k, w, trivial⟩

theorem elseIf_sound (hn : nested.Sound rules) {e : ElseIf} (hc : c.Ended)
    (h : elseIf nested s c = .ok (some e) c') :
    ∃ ts, c.Takes ts c' ∧ e.Written rules s ts := by
  obtain ⟨hat, hif, condition, c1, hcond, body, c2, hbody, he, rfl⟩ | ⟨-, he, -⟩ := elseIf_ok.1 h
  · obtain rfl := Option.some.inj he
    obtain ⟨t, u, us, hr, ht, -⟩ := atElse_iff.1 hat
    obtain ⟨rfl, -⟩ := Cursor.rest_eq_cons hr
    have k1 := hc.takes_keyword ht
    have hu : c.advance.here.keyword? = some .ifWord := by
      rw [Cursor.next?_eq k1.rest] at hif
      simpa [Cursor.rest] using hif
    have k2 := (hc.of_takes k1).takes_keyword hu
    have hc2 := (hc.of_takes k1).of_takes k2
    obtain ⟨ts, k3, w3, -⟩ := condition_sound hn hc2 hcond
    obtain ⟨us, k4, w4, -⟩ := block_sound hn (hc2.of_takes k3) hbody
    have k := k1.cons (k2.cons (k3.trans k4))
    refine ⟨_, k, ?_⟩
    rw [k.spanOf (by simp)]
    exact .mk ht hu w3 w4
  · cases he

theorem elseIfs_sound (hn : nested.Sound rules) {es : List ElseIf}
    (h : Items (elseIf nested) s c es c') (hc : c.Ended) :
    ∃ ts, c.Takes ts c' ∧ ElseIf.EachWritten rules s es ts := by
  induction h with
  | @done c c' h =>
    obtain ⟨-, -, condition, c1, -, body, c2, -, he, -⟩ | ⟨-, -, rfl⟩ := elseIf_ok.1 h
    · cases he
    · exact ⟨[], .refl c, .nil⟩
  | more h hs ih =>
    obtain ⟨ts, k1, w1⟩ := elseIf_sound hn hc h
    obtain ⟨us, k2, w2⟩ := ih (hc.of_takes k1)
    exact ⟨_, k1.trans k2, .cons w1 w2⟩

theorem elseBlock_sound (hn : nested.Sound rules) :
    Sound (elseBlock nested) (fun _ => Block.ElseWritten rules)
      fun _ r o => o.isNone → ¬ AtElse r := by
  intro s c o c' hc h
  obtain ⟨hat, body, c1, hb, rfl, rfl⟩ | ⟨hat, rfl, rfl⟩ := elseBlock_ok.1 h
  · obtain ⟨t, u, us, hr, ht, -⟩ := atElse_iff.1 hat
    obtain ⟨rfl, -⟩ := Cursor.rest_eq_cons hr
    have k1 := hc.takes_keyword ht
    obtain ⟨ts, k2, w, -⟩ := block_sound hn (hc.of_takes k1) hb
    exact ⟨_, k1.cons k2, .some ht w, by simp⟩
  · refine ⟨[], .refl c, .none, fun _ hr => ?_⟩
    simp [atElse_iff.2 hr] at hat

theorem ifStmt_sound (hn : nested.Sound rules) :
    Sound (ifStmt nested) (fun s => IfStmt.Written rules s) fun _ r stmt => stmt.EndsBefore r := by
  intro s c stmt c' hc h
  obtain ⟨ht, condition, c1, hcond, body, c2, hbody, elseIfs, c3, helseIfs, elseBody, c4, helse,
    rfl, rfl⟩ := ifStmt_ok.1 h
  have k1 := hc.takes_keyword ht
  obtain ⟨ts, k2, w2, -⟩ := condition_sound hn (hc.of_takes k1) hcond
  have hc2 := (hc.of_takes k1).of_takes k2
  obtain ⟨us, k3, w3, -⟩ := block_sound hn hc2 hbody
  obtain ⟨vs, k4, w4⟩ := elseIfs_sound hn (items_of_collect helseIfs) (hc2.of_takes k3)
  obtain ⟨ws, k5, w5, e⟩ := elseBlock_sound hn ((hc2.of_takes k3).of_takes k4) helse
  have k := k1.cons (k2.trans (k3.trans (k4.trans k5)))
  refine ⟨_, k, ?_, e⟩
  rw [k.spanOf (by simp)]
  exact .mk ht w2 w3 w4 w5

theorem varDecl_sound (hn : nested.Sound rules) :
    Sound (varDecl nested) (fun s => VarDecl.Written rules s)
      fun s r d => Dotless r → d.value.ClosesValue s .group r := by
  intro s c d c' hc h
  obtain ⟨binding, ht, hk, type, c1, hty, hv, value, c2, hval, rfl, rfl⟩ := varDecl_ok.1 h
  have k1 := hc.takes_keyword ht
  have k2 := (hc.of_takes k1).takes_kind hk (by decide)
  have hc2 := (hc.of_takes k1).of_takes k2
  obtain ⟨ts, k3, w3, -⟩ := annotation_sound hc2 hty
  have k4 := (hc2.of_takes k3).takes_kind hv (by decide)
  obtain ⟨us, k5, w5, e⟩ := hn.value _ ((hc2.of_takes k3).of_takes k4) hval
  have k := k1.cons (k2.cons (k3.trans (k4.cons k5)))
  refine ⟨_, k, ?_, e⟩
  rw [k.spanOf (by simp)]
  exact .mk ht ⟨hk, rfl⟩ w3 hv w5

theorem initDecls_sound (hn : nested.Sound rules) {ds : List VarDecl} (hc : c.Ended)
    (h : initDecls nested s c = .ok ds c') :
    ∃ ts, c.Takes ts c' ∧ VarDecl.InitWritten rules s ds ts := by
  have hitems := items_of_collect h
  clear h
  induction hitems with
  | @done c c' h =>
    obtain ⟨-, d, c1, -, -, hd, -⟩ | ⟨-, -, rfl⟩ := initDecl_ok.1 h
    · cases hd
    · exact ⟨[], .refl c, .nil⟩
  | @more c c1 c' d ds h hs ih =>
    obtain ⟨-, d', c2, hdecl, hk, hd, rfl⟩ | ⟨-, hd, -⟩ := initDecl_ok.1 h
    · obtain rfl := Option.some.inj hd
      obtain ⟨ts, k1, w1, -⟩ := varDecl_sound hn hc hdecl
      have k2 := (hc.of_takes k1).takes_kind hk (by decide)
      obtain ⟨us, k3, w3⟩ := ih ((hc.of_takes k1).of_takes k2)
      exact ⟨_, k1.trans (k2.cons k3), .cons w1 hk w3⟩
    · cases hd

theorem iterHead_sound (hn : nested.Sound rules) {head : ForHead}
    (hw : isBindingWord c.here.keyword? = false) (hc : c.Ended)
    (h : iterHead nested s c = .ok head c') :
    ∃ ts, c.Takes ts c' ∧ head.Written rules s ts := by
  obtain ⟨hk, ⟨hcomma, hk2, hin, iterable, c1, hi, rfl, rfl⟩ |
    ⟨-, hin, iterable, c1, hi, rfl, rfl⟩⟩ := iterHead_ok.1 h
  · have k1 := hc.takes_kind hk (by decide)
    have hc1 := hc.of_takes k1
    have k2 := hc1.takes_kind hcomma (by decide)
    have k3 := (hc1.of_takes k2).takes_kind hk2 (by decide)
    have hc3 := (hc1.of_takes k2).of_takes k3
    have k4 := hc3.takes_keyword hin
    obtain ⟨ts, k5, w, -⟩ := hn.value _ (hc3.of_takes k4) hi
    exact ⟨_, k1.cons (k2.cons (k3.cons (k4.cons k5))),
      .indexed ⟨hk, rfl⟩ hw hcomma ⟨hk2, rfl⟩ hin w⟩
  · have k1 := hc.takes_kind hk (by decide)
    have k2 := (hc.of_takes k1).takes_keyword hin
    obtain ⟨ts, k3, w, -⟩ := hn.value _ ((hc.of_takes k1).of_takes k2) hi
    exact ⟨_, k1.cons (k2.cons k3), .iterate ⟨hk, rfl⟩ hw hin w⟩

theorem countedHead_sound (hn : nested.Sound rules) {head : ForHead} (hc : c.Ended)
    (h : countedHead nested s c = .ok head c') :
    ∃ ts, c.Takes ts c' ∧ head.Written rules s ts := by
  obtain ⟨init, c1, hi, ⟨-, rfl, rfl⟩ | ⟨-, condition, c2, hcond, rfl, rfl⟩⟩ := countedHead_ok.1 h
  · obtain ⟨ts, k, w⟩ := initDecls_sound hn hc hi
    exact ⟨ts, k, .init w⟩
  · obtain ⟨ts, k1, w1⟩ := initDecls_sound hn hc hi
    obtain ⟨us, k2, w2, -⟩ := condition_sound hn (hc.of_takes k1) hcond
    exact ⟨_, k1.trans k2, .counted w1 w2⟩

theorem forStmt_sound (hn : nested.Sound rules) :
    Sound (forStmt nested) (fun s => ForStmt.Written rules s) fun _ _ _ => True := by
  intro s c stmt c' hc h
  obtain ⟨ht, head, c1, hhead, body, c2, hbody, rfl, rfl⟩ := forStmt_ok.1 h
  have k1 := hc.takes_keyword ht
  have hc1 := hc.of_takes k1
  have hsound : ∃ ts, c.advance.Takes ts c1 ∧ head.Written rules s ts := by
    obtain ⟨hat, hi⟩ | ⟨-, hi⟩ := hhead
    · refine iterHead_sound hn ?_ hc1 hi
      simp only [atIterHead, Bool.and_eq_true, Bool.not_eq_true'] at hat
      exact hat.1.2
    · exact countedHead_sound hn hc1 hi
  obtain ⟨ts, k2, w2⟩ := hsound
  obtain ⟨us, k3, w3, -⟩ := block_sound hn (hc1.of_takes k2) hbody
  have k := k1.cons (k2.trans k3)
  refine ⟨_, k, ?_, trivial⟩
  rw [k.spanOf (by simp)]
  exact .mk ht w2 w3

theorem caseBody_sound (hn : nested.Sound rules) :
    Sound (caseBody nested) (fun s => CaseBody.Written rules s)
      fun s r body => Apart r → body.EndsBefore s r := by
  intro s c body c' hc h
  obtain ⟨hk, st, c1, hst, rfl, rfl⟩ | ⟨-, b, c1, hb, rfl, rfl⟩ := caseBody_ok.1 h
  · have k1 := hc.takes_kind hk (by decide)
    obtain ⟨ts, k2, w, e⟩ := hn.statement (hc.of_takes k1) hst
    exact ⟨_, k1.cons k2, .arrow hk w, e⟩
  · obtain ⟨ts, k, w, -⟩ := block_sound hn hc hb
    exact ⟨ts, k, .block w, fun _ => trivial⟩

theorem whenCase_sound (hn : nested.Sound rules) :
    Sound (whenCase nested) (fun s => WhenCase.Written rules s)
      fun s r x => Apart r → x.body.EndsBefore s r := by
  intro s c x c' hc h
  obtain ⟨ht, pattern, c1, hp, body, c2, hb, rfl, rfl⟩ := whenCase_ok.1 h
  have k1 := hc.takes_keyword ht
  obtain ⟨ts, k2, w2, e2⟩ := hn.expr _ (hc.of_takes k1) hp
  obtain ⟨us, k3, w3, e3⟩ := caseBody_sound hn ((hc.of_takes k1).of_takes k2) hb
  have k := k1.cons (k2.trans k3)
  refine ⟨_, k, ?_, e3⟩
  rw [k.spanOf (by simp)]
  have hus : us ≠ [] ∧ Dotless c1.rest := by
    cases w3 with
    | arrow hk _ =>
      rw [k3.rest]
      exact ⟨by simp, (apart_of_kind (by simp [hk])).dot⟩
    | block w =>
      cases w with
      | mk hk _ =>
        rw [k3.rest]
        refine ⟨by simp, ?_⟩
        rintro ⟨_, ⟨⟩, hcont⟩
        simp [continuesWith, hk] at hcont
  exact .mk ht w2 ((e2 hus.2).mono (k3.rest ▸ alike_append hus.1 _).looser) w3

theorem elseCase_sound (hn : nested.Sound rules) {o : Option CaseBody} (hc : c.Ended)
    (h : elseCase nested .item c = .ok o c') (hclose : c'.here.kind = .closeBrace) :
    ∃ ts, c.Takes ts c'.advance ∧ CaseBody.ElseWritten rules o ts := by
  obtain ⟨ht, body, c1, hb, ⟨hsemi, -, rfl, rfl⟩ | ⟨-, rfl, rfl⟩⟩ | ⟨-, rfl, rfl⟩ :=
    elseCase_ok.1 h
  · have k1 := hc.takes_keyword ht
    obtain ⟨ts, k2, w, -⟩ := caseBody_sound hn (hc.of_takes k1) hb
    have hc2 := (hc.of_takes k1).of_takes k2
    have k3 := hc2.takes_kind hsemi (by decide)
    have k4 := (hc2.of_takes k3).takes_kind hclose (by decide)
    exact ⟨_, k1.cons (k2.trans (k3.cons k4)), .separated ht w hsemi hclose⟩
  · have k1 := hc.takes_keyword ht
    obtain ⟨ts, k2, w, -⟩ := caseBody_sound hn (hc.of_takes k1) hb
    have k3 := ((hc.of_takes k1).of_takes k2).takes_kind hclose (by decide)
    exact ⟨_, k1.cons (k2.trans k3), .some ht w hclose⟩
  · exact ⟨_, hc.takes_kind hclose (by decide), .none hclose⟩

theorem whenCases_sound (hn : nested.Sound rules) {xs : List WhenCase} {o : Option CaseBody}
    {c2 : Cursor} (hc : c.Ended) (h : whenCases nested .item c = .ok xs c')
    (ho : elseCase nested .item c' = .ok o c2) (hclose : c2.here.kind = .closeBrace) :
    ∃ ts, c.Takes ts c2.advance ∧ WhenCase.EachWritten rules o xs ts := by
  have hitems := items_of_collect h
  clear h
  induction hitems with
  | @done c c' h =>
    obtain ⟨-, -, rfl⟩ | ⟨-, x, c1, -, hx, -⟩ := whenCases_ok.1 h
    · obtain ⟨ts, k, w⟩ := elseCase_sound hn hc ho hclose
      exact ⟨ts, k, .done w⟩
    · cases hx
  | @more c c1 c' x xs h hs ih =>
    obtain ⟨-, hx, -⟩ | ⟨-, y, c3, hcase, hx, hend⟩ := whenCases_ok.1 h
    · cases hx
    obtain rfl := Option.some.inj hx
    obtain ⟨ts, k1, w1, e1⟩ := whenCase_sound hn hc hcase
    have hc3 := hc.of_takes k1
    obtain ⟨hsemi, rfl⟩ | ⟨hsemi, hbreak, rfl⟩ := hend
    · have k2 := hc3.takes_kind hsemi (by decide)
      obtain ⟨us, k3, w3⟩ := ih (hc3.of_takes k2) ho
      have he := e1 (apart_of_kind (by simp [hsemi]))
      have hr := (k2.cons k3).rest
      refine ⟨_, k1.trans (k2.cons k3), .separated w1 ?_ hsemi w3⟩
      exact Alike.caseBody (hr ▸ alike_append (by simp) _) he
    · obtain ⟨us, k3, w3⟩ := ih hc3 ho
      cases us with
      | nil => exact absurd rfl w3.ne_nil
      | cons t us =>
        have ht := k3.here_eq
        subst ht
        have he : y.body.EndsBefore .item c3.rest := by
          obtain hk | hline := hbreak
          · exact e1 (apart_of_kind (by simp [hk]))
          · exact e1 (apart_of_break hline)
        refine ⟨_, k1.trans k3, .unseparated w1 ?_ hsemi hbreak w3⟩
        exact Alike.caseBody (k3.rest ▸ alike_append (by simp) _) he

theorem whenStmt_sound (hn : nested.Sound rules) :
    Sound (whenStmt nested) (fun s => WhenStmt.Written rules s) fun _ _ _ => True := by
  intro s c stmt c' hc h
  obtain ⟨ht, init, c1, hi, subject, c2, hs, hk, xs, c3, hxs, o, c4, ho, hclose, rfl, rfl⟩ :=
    whenStmt_ok.1 h
  have k1 := hc.takes_keyword ht
  obtain ⟨ts, k2, w2⟩ := initDecls_sound hn (hc.of_takes k1) hi
  have hc1 := (hc.of_takes k1).of_takes k2
  obtain ⟨us, k3, w3, -⟩ := condition_sound hn hc1 hs
  have k4 := (hc1.of_takes k3).takes_kind hk (by decide)
  obtain ⟨vs, k5, w5⟩ := whenCases_sound hn ((hc1.of_takes k3).of_takes k4) hxs ho hclose
  have k := k1.cons (k2.trans (k3.trans (k4.cons k5)))
  refine ⟨_, k, ?_, trivial⟩
  rw [k.spanOf (by simp)]
  exact .mk ht w2 w3 hk w5

theorem value_sound (hn : nested.Sound rules) (min : Strength) :
    Sound (value nested min) (fun s => Expr.ValueWritten rules s min)
      fun s r e => Dotless r → e.ClosesValue s min r := by
  intro s c e c' hc h
  obtain ⟨-, stmt, c1, hs, rfl, rfl⟩ | ⟨-, stmt, c1, hs, rfl, rfl⟩ | ⟨-, -, he⟩ := value_ok.1 h
  · obtain ⟨ts, k, w, e⟩ := ifStmt_sound hn hc hs
    refine ⟨ts, k, ?_, fun _ => ⟨e, fun hv => (hv trivial).elim⟩⟩
    rw [k.spanOf w.begin.ne_nil]
    exact .ifExpr w
  · obtain ⟨ts, k, w, -⟩ := whenStmt_sound hn hc hs
    refine ⟨ts, k, ?_, fun _ => ⟨trivial, fun hv => (hv trivial).elim⟩⟩
    rw [k.spanOf w.begin.ne_nil]
    exact .whenExpr w
  · obtain ⟨ts, k, w, e⟩ := expr_sound hn min hc he
    exact ⟨ts, k, .expr w, fun hd => ⟨(e hd).ends, fun _ => (e hd).stops⟩⟩

end Parser

end Script
