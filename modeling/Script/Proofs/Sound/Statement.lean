import Script.Proofs.Sound.Control
import Script.Rules.Statement

/-!
What the parsers of declarations, statements and programs take is written as the rules say. Every
level of nesting is sound for the rules of that level, so a program that is read is written.
-/
namespace Script

variable {rules : Rules} {s : Surroundings} {ts : List Token}

theorem UseDecl.Written.tail_ne_nil {d : UseDecl} (h : d.Written ts) : ts.tail ≠ [] := by
  cases h with
  | mk _ hp _ => simp [hp.ne_nil]

theorem ImportDecl.Written.tail_ne_nil {d : ImportDecl} (h : d.Written rules ts) :
    ts.tail ≠ [] := by
  cases h with
  | plain _ hp => exact hp.ne_nil
  | call => simp

theorem NodeDecl.Written.tail_ne_nil {d : NodeDecl} (h : d.Written rules ts) : ts.tail ≠ [] := by
  cases h
  simp

theorem TypeDecl.Written.tail_ne_nil {d : TypeDecl} (h : d.Written ts) : ts.tail ≠ [] := by
  cases h
  simp

theorem EnumDecl.Written.tail_ne_nil {d : EnumDecl} (h : d.Written rules ts) :
    ts.tail ≠ [] := by
  cases h
  simp

/-- Only a name is an expression of the kind of a name. -/
theorem Expr.Written.name {min : Strength} {n : Name} {span : Span}
    (h : Expr.Written rules s min ⟨.name n, span⟩ ts) : n.WrittenOperand ts := by
  cases h with
  | operand he =>
    cases he with
    | name hn => exact hn
  | extend _ _ _ he => cases he

namespace Parser

variable {nested : Nested} {c c' : Cursor}

theorem moreNames_sound {ns : List Name}
    (h : Items (do if ← skip .comma then return some (← name) else return none) s c ns c')
    (hc : c.Ended) :
    ∃ ts, c.Takes ts c' ∧ Name.MoreWritten ns ts ∧ c'.here.kind ≠ .comma := by
  induction h with
  | @done c c' h =>
    obtain ⟨-, n, c1, -, hn, -⟩ | ⟨hk, -, rfl⟩ := useSub_ok.1 h
    · cases hn
    · exact ⟨[], .refl c, .nil, hk⟩
  | @more c c1 c' n ns h hs ih =>
    obtain ⟨hk, n', c2, hname, hn, rfl⟩ | ⟨-, hn, -⟩ := useSub_ok.1 h
    · obtain rfl := Option.some.inj hn
      have k1 := hc.takes_kind hk (by decide)
      obtain ⟨ts, k2, w2, -⟩ := name_sound (hc.of_takes k1) hname
      obtain ⟨us, k3, w3, hne⟩ := ih ((hc.of_takes k1).of_takes k2)
      exact ⟨_, k1.cons (k2.trans k3), .cons hk w2 w3, hne⟩
    · cases hn

theorem useSubs_sound : Sound useSubs (fun _ => UseDecl.SubsWritten) fun _ r ns =>
    Dotless r → if ns.isEmpty then ¬ Continues .colon r else ∀ t ∈ r.head?, t.kind ≠ .comma := by
  intro s c ns c' hc h
  obtain ⟨hcolon, n, c1, hn, others, c2, ho, rfl, rfl⟩ | ⟨hcolon, rfl, rfl⟩ := useSubs_ok.1 h
  · have k1 := hc.takes_kind (continuesWith_kind hcolon) (by decide)
    obtain ⟨ts, k2, w2, -⟩ := name_sound (hc.of_takes k1) hn
    obtain ⟨us, k3, w3, hne⟩ := moreNames_sound (items_of_collect ho) ((hc.of_takes k1).of_takes k2)
    refine ⟨_, k1.cons (k2.trans k3), .cons hcolon w2 w3, fun _ t ht => ?_⟩
    obtain rfl : c2.here = t := by simpa [Cursor.rest] using ht
    exact hne
  · refine ⟨[], .refl c, .nil, fun _ hcont => ?_⟩
    simp [Cursor.continues_rest.1 hcont] at hcolon

theorem useDecl_sound : Sound useDecl (fun _ => UseDecl.Written)
    fun _ r d => Dotless r → d.EndsBefore r := by
  intro s c d c' hc h
  obtain ⟨ht, path, c1, hp, subs, c2, hs, rfl, rfl⟩ := useDecl_ok.1 h
  have k1 := hc.takes_keyword ht
  obtain ⟨ts, k2, w2, -⟩ := name_sound (hc.of_takes k1) hp
  obtain ⟨us, k3, w3, e⟩ := useSubs_sound ((hc.of_takes k1).of_takes k2) hs
  have k := k1.cons (k2.trans k3)
  refine ⟨_, k, ?_, fun hd => ⟨hd, e hd⟩⟩
  rw [k.spanOf (by simp)]
  exact .mk ht w2 w3

theorem importDecl_sound (hn : nested.Sound rules) :
    Sound (importDecl nested) (fun _ => ImportDecl.Written rules)
      fun _ r d => Dotless r → d.args.isNone → Dotless r ∧ ¬ Continues .openParen r := by
  intro s c d c' hc h
  obtain ⟨ht, path, c1, hp, args, c2, ha, rfl, rfl⟩ := importDecl_ok.1 h
  have k1 := hc.takes_keyword ht
  obtain ⟨ts, k2, w2, -⟩ := name_sound (hc.of_takes k1) hp
  have hc1 := (hc.of_takes k1).of_takes k2
  obtain ⟨hparen, args, c3, hargs, rfl, rfl⟩ | ⟨hparen, rfl, rfl⟩ := importArgs_ok.1 ha
  · obtain ⟨us, k3, -, w3⟩ := arguments_sound hn hargs hc1
    have k := k1.cons (k2.trans k3)
    refine ⟨_, k, ?_, by simp⟩
    rw [k.spanOf (by simp)]
    exact .call ht w2 hparen w3
  · have k := k1.cons k2
    refine ⟨_, k, ?_, fun hd _ => ⟨hd, fun hcont => ?_⟩⟩
    · rw [k.spanOf (by simp)]
      exact .plain ht w2
    · simp [Cursor.continues_rest.1 hcont] at hparen

theorem param_sound : Sound param (fun _ => Param.Written)
    fun _ r p => Dotless r → p.EndsBefore r := by
  intro s c p c' hc h
  obtain ⟨hk, type, c1, ht, rfl, rfl⟩ := param_ok.1 h
  have k1 := hc.takes_kind hk (by decide)
  obtain ⟨ts, k2, w2, e⟩ := annotation_sound (hc.of_takes k1) ht
  have k := k1.cons k2
  refine ⟨_, k, ?_, e⟩
  rw [k.spanOf (by simp)]
  exact .mk ⟨hk, rfl⟩ w2

theorem property_sound : Sound property (fun _ => Property.Written)
    fun _ r p => Dotless r → p.EndsBefore r := by
  intro s c p c' hc h
  obtain ⟨name, c1, hn, type, c2, ht, rfl, rfl⟩ := property_ok.1 h
  obtain ⟨ts, k1, w1, -⟩ := name_sound hc hn
  obtain ⟨us, k2, w2, e⟩ := annotation_sound (hc.of_takes k1) ht
  have k := k1.trans k2
  refine ⟨_, k, ?_, fun hd => ⟨fun _ => hd, e hd⟩⟩
  have hne : ts ++ us ≠ [] := by cases w1 <;> simp
  rw [k.spanOf hne]
  exact .mk w1 w2

theorem fnBody_sound (hn : nested.Sound rules) :
    Sound (fnBody nested) (fun s => FnBody.Written rules s)
      fun s r b => Dotless r → b.EndsBefore s r := by
  intro s c b c' hc h
  obtain ⟨hk, e, c1, he, rfl, rfl⟩ | ⟨-, b, c1, hb, rfl, rfl⟩ := fnBody_ok.1 h
  · have k1 := hc.takes_kind hk (by decide)
    obtain ⟨ts, k2, w, e⟩ := hn.expr _ (hc.of_takes k1) he
    exact ⟨_, k1.cons k2, .expr hk w, e⟩
  · obtain ⟨ts, k, w, -⟩ := block_sound hn hc hb
    exact ⟨ts, k, .block w, fun _ => trivial⟩

theorem fnDecl_sound (hn : nested.Sound rules) :
    Sound (fnDecl nested) (fun s => FnDecl.Written rules s)
      fun s r d => Dotless r → d.body.EndsBefore s r := by
  intro s c d c' hc h
  obtain ⟨ht, name, c1, hname, params, c2, hp, result, c3, hr, body, c4, hb, rfl, rfl⟩ :=
    fnDecl_ok.1 h
  have k1 := hc.takes_keyword ht
  obtain ⟨ts, k2, w2, -⟩ := name_sound (hc.of_takes k1) hname
  have hc1 := (hc.of_takes k1).of_takes k2
  obtain ⟨us, k3, hu, w3⟩ := bracketed_sound (param_sound.weaken fun _ _ _ he ha => he ha.dot)
    (fun h hp => h.param hp) ⟨by decide, by decide, by decide⟩ hp hc1
  have hc2 := hc1.of_takes k3
  obtain ⟨vs, k4, w4, -⟩ := annotation_sound hc2 hr
  obtain ⟨ws, k5, w5, e⟩ := fnBody_sound hn (hc2.of_takes k4) hb
  have k := k1.cons (k2.trans (k3.trans (k4.trans k5)))
  refine ⟨_, k, ?_, e⟩
  rw [k.spanOf (by simp)]
  exact .mk ht w2 hu w3 w4 w5

theorem nodeEntry_sound (hn : nested.Sound rules) :
    Sound (nodeEntry nested) (fun s => Statement.EntryWritten rules s)
      fun s r st => Dotless r → st.EntryEndsBefore s r := by
  intro s c st c' hc h
  obtain ⟨-, stmt, c1, hs, rfl, rfl⟩ | ⟨-, e, c1, he, hp, rfl, rfl⟩ := nodeEntry_ok.1 h
  · obtain ⟨ts, k, w, e⟩ := ifStmt_sound hn hc hs
    refine ⟨ts, k, ?_, fun _ => e⟩
    rw [k.spanOf w.begin.ne_nil]
    exact .ifStmt w
  · obtain ⟨ts, k, w, e⟩ := hn.expr _ hc he
    exact ⟨ts, k, .pair w hp, e⟩

theorem nodeBody_sound (hn : nested.Sound rules) :
    Sound (nodeBody nested) (fun _ => NodeDecl.BodyWritten rules)
      fun _ r o => o.isNone → ¬ Continues .openBrace r := by
  intro s c o c' hc h
  obtain ⟨hcont, entries, c1, he, rfl, rfl⟩ | ⟨hcont, rfl, rfl⟩ := nodeBody_ok.1 h
  · obtain ⟨ts, k, -, w⟩ := bracketed_sound
      ((nodeEntry_sound hn).weaken fun _ _ _ he ha => he ha.dot) (fun h he => h.entry he)
      ⟨by decide, by decide, by decide⟩ he hc
    exact ⟨_, k, .some hcont w, by simp⟩
  · refine ⟨[], .refl c, .none, fun _ hr => ?_⟩
    simp [Cursor.continues_rest.1 hr] at hcont

theorem nodeDecl_sound (hn : nested.Sound rules) :
    Sound (nodeDecl nested) (fun _ => NodeDecl.Written rules)
      fun _ r d => d.body.isNone → ¬ Continues .openBrace r := by
  intro s c d c' hc h
  obtain ⟨ht, name, c1, hname, props, c2, hp, body, c3, hb, rfl, rfl⟩ := nodeDecl_ok.1 h
  have k1 := hc.takes_keyword ht
  obtain ⟨ts, k2, w2, -⟩ := name_sound (hc.of_takes k1) hname
  have hc1 := (hc.of_takes k1).of_takes k2
  obtain ⟨us, k3, hu, w3⟩ := bracketed_sound (property_sound.weaken fun _ _ _ he ha => he ha.dot)
    (fun h hp => h.property hp) ⟨by decide, by decide, by decide⟩ hp hc1
  obtain ⟨vs, k4, w4, e⟩ := nodeBody_sound hn (hc1.of_takes k3) hb
  have k := k1.cons (k2.trans (k3.trans k4))
  refine ⟨_, k, ?_, e⟩
  rw [k.spanOf (by simp)]
  exact .mk ht w2 hu w3 w4

theorem fieldDecl_sound : Sound fieldDecl (fun _ => FieldDecl.Written)
    fun _ r d => Dotless r → d.EndsBefore r := by
  intro s c d c' hc h
  obtain ⟨hk, hcolon, type, c1, ht, rfl, rfl⟩ := fieldDecl_ok.1 h
  have k1 := hc.takes_kind hk (by decide)
  have k2 := (hc.of_takes k1).takes_kind hcolon (by decide)
  obtain ⟨ts, k3, w3, e⟩ := typeRef_sound ((hc.of_takes k1).of_takes k2) ht
  have k := k1.cons (k2.cons k3)
  refine ⟨_, k, ?_, e⟩
  rw [k.spanOf (by simp)]
  exact .mk ⟨hk, rfl⟩ hcolon w3

theorem typeDecl_sound : Sound typeDecl (fun _ => TypeDecl.Written) fun _ _ _ => True := by
  intro s c d c' hc h
  obtain ⟨ht, hk, fields, c1, hf, rfl, rfl⟩ := typeDecl_ok.1 h
  have k1 := hc.takes_keyword ht
  have k2 := (hc.of_takes k1).takes_kind hk (by decide)
  obtain ⟨ts, k3, hv, w3⟩ := bracketed_sound (fieldDecl_sound.weaken fun _ _ _ he ha => he ha.dot)
    (fun h hd => h.fieldDecl hd) ⟨by decide, by decide, by decide⟩ hf
    ((hc.of_takes k1).of_takes k2)
  have k := k1.cons (k2.cons k3)
  refine ⟨_, k, ?_, trivial⟩
  rw [k.spanOf (by simp)]
  exact .mk ht ⟨hk, rfl⟩ hv w3

theorem enumMember_sound (hn : nested.Sound rules) :
    Sound (enumMember nested) (fun s => EnumMember.Written rules s)
      fun s r m => Dotless r → m.EndsBefore s r := by
  intro s c m c' hc h
  obtain ⟨hk, ⟨ha, value, c1, hv, rfl, rfl⟩ | ⟨ha, rfl, rfl⟩⟩ := enumMember_ok.1 h
  · have k1 := hc.takes_kind hk (by decide)
    have k2 := (hc.of_takes k1).takes_kind ha (by decide)
    obtain ⟨ts, k3, w3, e⟩ := hn.expr _ ((hc.of_takes k1).of_takes k2) hv
    have k := k1.cons (k2.cons k3)
    refine ⟨_, k, ?_, e⟩
    rw [k.spanOf (by simp)]
    exact .assigned ⟨hk, rfl⟩ ha w3
  · have k := hc.takes_kind hk (by decide)
    refine ⟨_, k, ?_, fun _ t ht => ?_⟩
    · rw [k.spanOf (by simp)]
      exact .plain ⟨hk, rfl⟩
    · obtain rfl : c.advance.here = t := by simpa [Cursor.rest] using ht
      exact ha

theorem enumDecl_sound (hn : nested.Sound rules) :
    Sound (enumDecl nested) (fun _ => EnumDecl.Written rules) fun _ _ _ => True := by
  intro s c d c' hc h
  obtain ⟨ht, hk, members, c1, hm, rfl, rfl⟩ := enumDecl_ok.1 h
  have k1 := hc.takes_keyword ht
  have k2 := (hc.of_takes k1).takes_kind hk (by decide)
  obtain ⟨ts, k3, hv, w3⟩ := bracketed_sound
    ((enumMember_sound hn).weaken fun _ _ _ he ha => he ha.dot) (fun h hm => h.enumMember hm)
    ⟨by decide, by decide, by decide⟩ hm ((hc.of_takes k1).of_takes k2)
  have k := k1.cons (k2.cons k3)
  refine ⟨_, k, ?_, trivial⟩
  rw [k.spanOf (by simp)]
  exact .mk ht ⟨hk, rfl⟩ hv w3

theorem continues_tail {kind : TokenKind} (k : c.Takes ts c') (hts : ts.tail ≠ [])
    (h : (c.next?.map (continuesWith kind)).getD false = true) : Continues kind ts.tail := by
  cases ts with
  | nil => exact absurd rfl hts
  | cons t ts =>
    cases ts with
    | nil => exact absurd rfl hts
    | cons u us =>
      have hnext : c.next? = some u := by rw [Cursor.next?_eq k.rest]; rfl
      exact ⟨u, rfl, by simpa [hnext] using h⟩

/-- The word that introduces a statement is the keyword at its start, and the token after it has the
shape that the statement needs. -/
theorem leadWord_some {t : Token} {next : Option Token} {word : Keyword}
    (h : leadWord t next = some word) :
    t.keyword? = some word ∧
      (word ∈ [.modWord, .useWord, .importWord, .nodeWord, .typeWord, .enumWord] →
        (next.map (continuesWith .ident)).getD false = true) ∧
      (word ∈ [.uiWord, .styleWord] → (next.map (continuesWith .openBrace)).getD false = true) := by
  unfold leadWord at h
  cases hk : t.keyword? with
  | none => simp [hk] at h
  | some w =>
    cases w <;> simp [hk] at h <;>
      first
      | (obtain ⟨hn, rfl⟩ := h; simp [hn])
      | (subst h; simp)

theorem exprStatement_sound (hn : nested.Sound rules) {kind : StatementKind} {span : Span}
    (hc : c.Ended) (h : exprStatement nested s c = .ok kind c') :
    ∃ ts, c.Takes ts c' ∧ kind.Written rules s ts ∧
      (Apart c'.rest → Statement.EndsBefore s c'.rest ⟨kind, span⟩) := by
  obtain ⟨e, c1, he, h⟩ := exprStatement_ok.1 h
  obtain ⟨ts, k1, w1, e1⟩ := expr_sound hn .group hc he
  have hc1 := hc.of_takes k1
  obtain ⟨hk, target, ht, value, c2, hv, rfl, rfl⟩ | ⟨hk, rfl, rfl⟩ := h
  · have k2 := hc1.takes_kind hk (by decide)
    obtain ⟨us, k3, w3, e3⟩ := hn.value _ (hc1.of_takes k2) hv
    obtain ⟨ekind, espan⟩ := e
    obtain rfl : ekind = .name target := ht
    exact ⟨_, k1.trans (k2.cons k3), .assign w1.name hk w3, fun ha => e3 ha.dot⟩
  · refine ⟨ts, k1, .expr w1, fun ha => ⟨e1 ha.dot, fun t ht => ?_, ha⟩⟩
    obtain rfl : c1.here = t := by simpa [Cursor.rest] using ht
    exact hk

theorem statementKind_sound (hn : nested.Sound rules) {kind : StatementKind} (span : Span)
    (hc : c.Ended) (h : statementKind nested s c = .ok kind c') :
    ∃ ts, c.Takes ts c' ∧ kind.Written rules s ts ∧
      (Apart c'.rest → Statement.EndsBefore s c'.rest ⟨kind, span⟩) := by
  rw [statementKind, statementWord?_bind] at h
  cases hl : leadWord c.here c.next? with
  | none =>
    rw [hl] at h
    exact exprStatement_sound hn hc h
  | some word =>
    obtain ⟨hw, hident, hbrace⟩ := leadWord_some hl
    have k1 := hc.takes_keyword hw
    have hc1 := hc.of_takes k1
    rw [hl] at h
    cases word <;> simp only [bind_ok, pure_ok, advance_bind] at h
    case modWord =>
      obtain ⟨name, c1, hname, body, c2, hb, rfl, rfl⟩ := modDecl_ok.1 h
      obtain ⟨ts, k2, w2, -⟩ := name_sound hc1 hname
      obtain ⟨us, k3, w3, -⟩ := block_sound hn (hc1.of_takes k2) hb
      have hcont := continues_tail (k1.cons k2) w2.ne_nil (hident (by decide))
      exact ⟨_, k1.cons (k2.trans k3), .modDecl hw hcont w2 w3, fun _ => trivial⟩
    case useWord =>
      obtain ⟨d, c1, hd, rfl, rfl⟩ := h
      obtain ⟨ts, k, w, e⟩ := useDecl_sound hc hd
      exact ⟨ts, k, .useDecl w (continues_tail k w.tail_ne_nil (hident (by decide))),
        fun ha => e ha.dot⟩
    case importWord =>
      obtain ⟨d, c1, hd, rfl, rfl⟩ := h
      obtain ⟨ts, k, w, e⟩ := importDecl_sound hn hc hd
      exact ⟨ts, k, .importDecl w (continues_tail k w.tail_ne_nil (hident (by decide))),
        fun ha => e ha.dot⟩
    case varWord =>
      obtain ⟨d, c1, hd, rfl, rfl⟩ := h
      obtain ⟨ts, k, w, e⟩ := varDecl_sound hn hc hd
      exact ⟨ts, k, .varDecl w, fun ha => e ha.dot⟩
    case letWord =>
      obtain ⟨d, c1, hd, rfl, rfl⟩ := h
      obtain ⟨ts, k, w, e⟩ := varDecl_sound hn hc hd
      exact ⟨ts, k, .varDecl w, fun ha => e ha.dot⟩
    case fnWord =>
      obtain ⟨d, c1, hd, rfl, rfl⟩ := h
      obtain ⟨ts, k, w, e⟩ := fnDecl_sound hn hc hd
      exact ⟨ts, k, .fnDecl w, fun ha => e ha.dot⟩
    case nodeWord =>
      obtain ⟨d, c1, hd, rfl, rfl⟩ := h
      obtain ⟨ts, k, w, e⟩ := nodeDecl_sound hn hc hd
      exact ⟨ts, k, .nodeDecl w (continues_tail k w.tail_ne_nil (hident (by decide))), fun _ => e⟩
    case ifWord =>
      obtain ⟨stmt, c1, hs, rfl, rfl⟩ := h
      obtain ⟨ts, k, w, e⟩ := ifStmt_sound hn hc hs
      exact ⟨ts, k, .ifStmt w, fun _ => e⟩
    case forWord =>
      obtain ⟨stmt, c1, hs, rfl, rfl⟩ := h
      obtain ⟨ts, k, w, -⟩ := forStmt_sound hn hc hs
      exact ⟨ts, k, .forStmt w, fun _ => trivial⟩
    case whenWord =>
      obtain ⟨stmt, c1, hs, rfl, rfl⟩ := h
      obtain ⟨ts, k, w, -⟩ := whenStmt_sound hn hc hs
      exact ⟨ts, k, .whenStmt w, fun _ => trivial⟩
    case uiWord =>
      obtain ⟨b, c1, hb, rfl, rfl⟩ := h
      obtain ⟨ts, k2, w, -⟩ := block_sound hn hc1 hb
      have hcont := continues_tail (k1.cons k2) w.begin.ne_nil (hbrace (by decide))
      exact ⟨_, k1.cons k2, .uiBlock hw hcont w, fun _ => trivial⟩
    case styleWord =>
      obtain ⟨b, c1, hb, rfl, rfl⟩ := h
      obtain ⟨ts, k2, w, -⟩ := block_sound hn hc1 hb
      have hcont := continues_tail (k1.cons k2) w.begin.ne_nil (hbrace (by decide))
      exact ⟨_, k1.cons k2, .styleBlock hw hcont w, fun _ => trivial⟩
    case typeWord =>
      obtain ⟨d, c1, hd, rfl, rfl⟩ := h
      obtain ⟨ts, k, w, -⟩ := typeDecl_sound hc hd
      exact ⟨ts, k, .typeDecl w (continues_tail k w.tail_ne_nil (hident (by decide))),
        fun _ => trivial⟩
    case enumWord =>
      obtain ⟨d, c1, hd, rfl, rfl⟩ := h
      obtain ⟨ts, k, w, -⟩ := enumDecl_sound hn hc hd
      exact ⟨ts, k, .enumDecl w (continues_tail k w.tail_ne_nil (hident (by decide))),
        fun _ => trivial⟩
    case breakWord =>
      obtain ⟨rfl, rfl⟩ := h
      exact ⟨_, k1, .breakStmt hw, fun _ => trivial⟩
    all_goals exact exprStatement_sound hn hc h

theorem statement_sound (hn : nested.Sound rules) :
    Sound (statement nested) (fun s => Statement.Written rules s)
      fun s r st => Apart r → st.EndsBefore s r := by
  intro s c st c' hc h
  obtain ⟨kind, c1, hk, rfl, rfl⟩ := statement_ok.1 h
  obtain ⟨ts, k, w, e⟩ := statementKind_sound hn (c1.spanFrom c.here.start) hc hk
  refine ⟨ts, k, ?_, e⟩
  rw [k.spanOf w.begin.ne_nil]
  exact .mk w

/-- Every level of nesting is sound for the rules of that level. -/
theorem level_sound : ∀ n, (Nested.level n).Sound (Rules.level n)
  | 0 => by
    refine ⟨fun min s c e c' _ h => ?_, fun min s c e c' _ h => ?_, fun s c st c' _ h => ?_⟩ <;>
      cases h
  | n + 1 =>
    have hn := level_sound n
    ⟨fun min => expr_sound hn min, fun min => value_sound hn min, statement_sound hn⟩

end Parser

/-- A program that is read from a text is written as the tokens of the text. -/
theorem Program.written_of_parse {source : String} {p : Program}
    (h : Program.parse source = .ok p) :
    ∃ ts last, Lexed.ofString 0 source = ⟨ts, .ok last⟩ ∧ p.Written (ts ++ [last]) := by
  unfold Program.parse Program.ofLexed at h
  split at h
  · rename_i last hl
    refine ⟨(Lexed.ofString 0 source).tokens, last, by rw [← hl], ?_⟩
    have hlexed : Lexed.ofString 0 source = ⟨(Lexed.ofString 0 source).tokens, .ok last⟩ := by
      rw [← hl]
    generalize (Lexed.ofString 0 source).tokens = ts at h hlexed ⊢
    split at h
    · rename_i p' c hread
      obtain rfl := Except.ok.inj h
      obtain ⟨statements, hs, rfl⟩ := Parser.programWithin_ok.1 hread
      obtain ⟨us, k, hend, w⟩ := Parser.listed_sound (Parser.level_sound _).statement
        (fun h hst => h.statement hst) (by decide) (by decide) (Parser.listed_of_separated hs)
        (Parser.start_ended (Lexed.last_kind hlexed))
      obtain ⟨rfl, hrest⟩ := Parser.takes_all hlexed k hend
      obtain ⟨hhere, -⟩ := Cursor.rest_eq_cons hrest
      refine ⟨⟨_, hhere ▸ w⟩, ?_⟩
      have hstart : (Cursor.start us last).here.start =
          (((us ++ [last]).head?).map Token.start).getD 0 := by
        cases us <;> rfl
      rw [hstart, hhere]
      simp
    · cases h
  · split at h
    · cases h
    · split at h <;> cases h

end Script
