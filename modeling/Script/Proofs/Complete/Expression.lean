import Script.Proofs.Complete.Names
import Script.Proofs.Lexing
import Script.Rules.Expression

/-!
What is written as the rules for expressions say is read by their parsers, given the same of the
parsers for what is nested, up to a weight that is one byte less.
-/
namespace Script

/-- The parsers for what is nested read whatever weighs less than `k` and is written by some rules.
-/
structure Nested.Complete (nested : Nested) (k : Nat) (rules : Rules) : Prop where
  expr : ∀ min, Parser.Complete k (nested.expr min) (fun s => rules.expr s min)
    fun s r e => e.Closes s min r
  value : ∀ min, Parser.Complete k (nested.value min) (fun s => rules.value s min)
    fun s r e => e.ClosesValue s min r
  statement : Parser.Complete k nested.statement rules.statement
    fun s r st => st.EndsBefore s r

namespace Parser

variable {nested : Nested} {k : Nat} {rules : Rules} {s : Surroundings} {c c' : Cursor}
  {ts r : List Token}

theorem block_complete (hn : nested.Complete k rules) (ho : rules.Opening) :
    Complete (k + 1) (block nested) (fun _ => Block.Written rules) fun _ _ _ => True := by
  intro s b ts c r w hl hr hne _
  cases w with
  | mk ht hs =>
    obtain ⟨c', h, k1, r1⟩ := bracketed_complete hn.statement ho.statement
      ⟨by decide, by decide⟩ (fun h hst => h.statement hst) ht hs hl hr hne
    refine ⟨c', block_ok.2 ⟨_, c', h, ?_, rfl⟩, k1, r1⟩
    rw [k1.spanFrom (by simp), k1.here_eq, Token.spanOf]

theorem arguments_complete (hn : nested.Complete k rules) (ho : rules.Opening)
    {args : List Expr} {t : Token} (ht : t.kind = .openParen)
    (w : ListWritten [.comma] .closeParen (rules.expr .item .group) (Expr.Closes .item .group)
      args ts)
    (hl : Light (k + 1) (t :: ts)) (hr : c.rest = t :: ts ++ r) (hne : r ≠ []) :
    ∃ c', arguments nested s c = .ok args c' ∧ c.Takes (t :: ts) c' ∧ c'.rest = r :=
  bracketed_complete (hn.expr .group) (fun h => (ho.expr h).begin) ⟨by decide, by decide⟩
    (fun h he => he.mono h.looser) ht w hl hr hne

theorem final_end {last : Token} (h : last.kind = .endOfText) : Final s [last] :=
  Delimits.final (by rw [h]; decide)

/-- A reading that stops at the end token of a text is the reading of the text as a hole. -/
theorem inHole_of_ok {α : Type} {p : Parser α} {h : RawHole} {a : α} {last : Token}
    (hl : Lexed.ofString h.start h.text = ⟨ts, .ok last⟩)
    (hp : p .item (Cursor.start ts last) = .ok a c) (hc : c.rest = [last]) :
    inHole h p = .ok a := by
  have hkind : c.here.kind = .endOfText := by
    rw [(Cursor.rest_eq_cons hc).1]
    exact Lexed.last_kind hl
  have hwhole : (do let a ← p; let _ ← token .endOfText; return a : Parser α) .item
      (Cursor.start ts last) = .ok a c.advance := by
    rw [bind_of_ok hp, token_bind, if_pos hkind, pure_apply]
  simp only [inHole, hl, hwhole]

theorem part_complete (hn : nested.Complete k rules) {x : Piece} {p : StringPart}
    (w : p.Written rules x) (hx : ∀ h, x = .hole h → h.text.utf8ByteSize < k) :
    part nested x = .ok p := by
  cases w with
  | text => rfl
  | @nameHole h n ts last hk hl hname =>
    have hend := final_end (s := .item) (Lexed.last_kind hl)
    have hsize := Lexed.tokens_size hl
    obtain ⟨c, hp, -, hr⟩ := name_complete (s := .item) hname
      ⟨hsize.2, Nat.lt_of_le_of_lt hsize.1 (hx h rfl)⟩ (Cursor.start_rest ts last) (by simp)
      hend.dot
    simp only [part, hole, hk]
    exact map_eq_ok.2 ⟨n, inHole_of_ok hl hp hr, rfl⟩
  | @exprHole h e ts last hk hl he =>
    have hend := final_end (s := .grouped) (Lexed.last_kind hl)
    have hsize := Lexed.tokens_size hl
    obtain ⟨c, hp, -, hr⟩ := hn.value .group he
      ⟨hsize.2, Nat.lt_of_le_of_lt hsize.1 (hx h rfl)⟩ (Cursor.start_rest ts last) (by simp)
      (hend.closesValue e .group)
    simp only [part, hole, hk]
    exact map_eq_ok.2 ⟨e, inHole_of_ok hl hp hr, rfl⟩

theorem parts_complete (hn : nested.Complete k rules) {xs : List Piece} {ps : List StringPart}
    (w : StringPart.EachWritten rules xs ps)
    (hx : ∀ h, .hole h ∈ xs → h.text.utf8ByteSize < k) : xs.mapM (part nested) = .ok ps := by
  induction w with
  | nil => rfl
  | cons hp _ ih =>
    have h1 := part_complete hn hp fun h hh => hx h (by simp [hh])
    have h2 := ih fun h hh => hx h (by simp [hh])
    simp only [List.mapM_cons, h1, h2, bind, Except.bind, pure, Except.pure]

theorem literal_complete (hn : nested.Complete k rules) {t : Token} {l : StringLiteral}
    (w : l.Written rules t) (hl : Light (k + 1) [t]) : literalOf nested t = .ok l := by
  cases w with
  | mk hd hp =>
    have hparts := parts_complete hn hp fun h hh => by
      have hsize := decode_size hd hh
      have hw := hl.weight
      simp only [Token.weight] at hw
      omega
    simp only [literalOf, hd, hparts]

theorem operand_complete (hn : nested.Complete k rules) (ho : rules.Opening) :
    Complete (k + 1) (operand nested) (fun s => Expr.OperandWritten rules s)
      fun s r e => e.EndsBefore s r := by
  intro s e ts c r w hl hr hne he
  cases w with
  | @unary op t ts inner ht hop =>
    obtain ⟨rfl, k1, h1⟩ := Cursor.next (r := ts ++ r) hr (by simp [hne])
    obtain ⟨c', hx, k2, r2⟩ := hn.expr .unary hop hl.tail h1 hne ⟨he.1, he.2⟩
    refine ⟨c', ?_, k1.cons k2, r2⟩
    rw [operand, here_bind]
    simp only [ht]
    exact unary_ok.2 ⟨_, c', hx, rfl, rfl⟩
  | @word t w literal ht hlit =>
    obtain ⟨rfl, k1, h1⟩ := Cursor.next (r := r) hr hne
    refine ⟨_, ?_, k1, h1⟩
    have hk := Token.kind_of_keyword? ht
    rw [operand, here_bind]
    simp only [hk, UnaryOp.ofKind?, UnaryOp.table, List.lookup_cons, List.lookup_nil]
    exact wordOperand_ok.2 (.inl ⟨w, literal, ht, hlit, rfl, rfl⟩)
  | @name n ts hname =>
    obtain ⟨c', hx, k1, r1⟩ := name_complete (s := s) hname.name hl hr hne he
    have hnamed : named s c = .ok ⟨.name n, n.span⟩ c' := named_ok.2 ⟨n, c', hx, rfl, rfl⟩
    refine ⟨c', ?_, k1, r1⟩
    rw [operand, here_bind]
    cases hname.name with
    | absolute hi =>
      have hhere := k1.here_eq
      simp only [hhere, hi.kind, UnaryOp.ofKind?, UnaryOp.table, List.lookup_cons, List.lookup_nil]
      exact wordOperand_ok.2 (.inr ⟨fun word hw => hname.free _ rfl word hw, hnamed⟩)
    | relative hd =>
      have hhere := k1.here_eq
      simp only [hhere, hd, UnaryOp.ofKind?, UnaryOp.table, List.lookup_cons, List.lookup_nil]
      exact hnamed
  | @number t kind ht =>
    obtain ⟨rfl, k1, h1⟩ := Cursor.next (r := r) hr hne
    refine ⟨_, ?_, k1, h1⟩
    rw [operand, here_bind]
    simp only [ht, UnaryOp.ofKind?, UnaryOp.table, List.lookup_cons, List.lookup_nil]
    rfl
  | @string t literal ht hlit =>
    obtain ⟨rfl, k1, h1⟩ := Cursor.next (r := r) hr hne
    have hx := stringLiteral_ok (s := s).2 ⟨literal_complete hn hlit hl, rfl⟩
    refine ⟨_, ?_, k1, h1⟩
    rw [operand, here_bind]
    cases hk : c.here.kind <;> rw [hk] at ht <;> cases ht <;> exact bind_of_ok hx
  | @group t u ts inner ht hi hu =>
    obtain ⟨rfl, k1, h1⟩ := Cursor.next (r := ts ++ [u] ++ r) hr (by simp)
    have h1 : c.advance.rest = ts ++ (u :: r) := by rw [h1]; simp
    have hfinal : Final .grouped (u :: r) := Delimits.final (by rw [hu]; decide)
    obtain ⟨c1, hx, k2, r2⟩ := hn.expr .group hi hl.tail.left h1 (by simp) (hfinal.closes _ _)
    obtain ⟨rfl, k3, r3⟩ := Cursor.next r2 hne
    have hk := k1.cons (k2.trans k3)
    refine ⟨_, ?_, hk, r3⟩
    rw [operand, here_bind]
    simp only [ht, UnaryOp.ofKind?, UnaryOp.table, List.lookup_cons, List.lookup_nil]
    refine group_ok.2 ⟨ht, inner, c1, hx, hu, ?_, rfl⟩
    rw [hk.spanFrom (by simp), Token.spanOf]
  | @array t ts items ht hi =>
    obtain ⟨c', hx, k1, r1⟩ := bracketed_complete (s := s) (hn.value .group) ho.value
      ⟨by decide, by decide⟩ (fun h he => he.mono h.looser) ht hi hl hr hne
    refine ⟨c', ?_, k1, r1⟩
    have hhere := k1.here_eq
    rw [operand, here_bind]
    simp only [hhere, ht, UnaryOp.ofKind?, UnaryOp.table, List.lookup_cons, List.lookup_nil]
    refine array_ok.2 ⟨items, c', hx, ?_, rfl⟩
    rw [k1.spanFrom (by simp), hhere, Token.spanOf]
  | @object t ts entries ht hs hi =>
    obtain ⟨c', hx, k1, r1⟩ := bracketed_complete (s := s) hn.statement ho.statement
      ⟨by decide, by decide⟩ (fun h hst => h.statement hst) ht hi hl hr hne
    refine ⟨c', ?_, k1, r1⟩
    have hhere := k1.here_eq
    rw [operand, here_bind]
    simp only [hhere, ht, UnaryOp.ofKind?, UnaryOp.table, List.lookup_cons, List.lookup_nil]
    have hobject : object nested s c = .ok ⟨.object entries, Token.spanOf (t :: ts)⟩ c' := by
      refine object_ok.2 ⟨entries, c', hx, ?_, rfl⟩
      rw [k1.spanFrom (by simp), hhere, Token.spanOf]
    have hrole : (s.brace.role .operand = .object) := by rw [hs]; rfl
    show (if s.brace.role .operand = .object then object nested
      else fail .ambiguousBrace t.span : Parser Expr) s c = _
    rw [if_pos hrole, hobject]

theorem trailing_complete (hn : nested.Complete k rules) (ho : rules.Opening) :
    Complete (k + 1) (trailingBlock nested) (fun s => Block.TrailingWritten rules s)
      fun s r o => o.isNone → s.brace = .expectValue → ¬ Continues .openBrace r := by
  intro s o ts c r w hl hr hne he
  cases w with
  | none =>
    rw [List.nil_append] at hr
    refine ⟨c, trailingBlock_ok.2 (.inr ⟨?_, rfl, rfl⟩), .refl c, hr⟩
    rintro ⟨hs, hcont⟩
    exact he rfl hs (hr ▸ ⟨c.here, rfl, hcont⟩)
  | some hs hcont hb =>
    obtain ⟨c', hx, k1, r1⟩ := block_complete hn ho (s := s) hb hl hr hne trivial
    refine ⟨c', trailingBlock_ok.2 (.inl ⟨hs, ?_, _, c', hx, rfl, rfl⟩), k1, r1⟩
    cases hb with
    | mk ht =>
      obtain ⟨t, ht, hk⟩ := hcont
      obtain rfl := Option.some.inj ht
      rwa [k1.here_eq]

/-- The arguments of a call end before whatever follows them, and so does a trailing block. -/
theorem extend_complete (hn : nested.Complete k rules) (ho : rules.Opening) {left e : Expr}
    {o : Operator} {t : Token} (hop : Operator.ofKind? t.kind = some o)
    (w : Expr.Extends rules s left o (t :: ts) e) (hl : Light (k + 1) (t :: ts))
    (hr : c.rest = t :: ts ++ r) (hne : r ≠ []) (he : e.EndsBefore s r) :
    ∃ c', extend nested left o s c = .ok e c' ∧ c.Takes (t :: ts) c' ∧ c'.rest = r := by
  have hnext : ∀ {ts'}, ts ++ r = ts' → ts' ≠ [] →
      c.here = t ∧ c.Takes [t] c.advance ∧ c.advance.rest = ts' := by
    rintro _ rfl hts
    exact Cursor.next hr hts
  cases w with
  | @binary op _ _ right hbin hright =>
    have hmin : op.strength.rightMin o.assoc = o.rightMin := by
      obtain ⟨_, rfl⟩ | ⟨_, rfl⟩ | ⟨-, rfl⟩ | ⟨-, rfl⟩ | ⟨-, rfl⟩ := operator_cases hop
      · cases hbin
        rfl
      all_goals cases hbin
    obtain ⟨rfl, k1, r1⟩ := hnext rfl (by simp [hne])
    obtain ⟨c', hx, k2, r2⟩ := hn.expr _ hright hl.tail r1 hne ⟨he.1, hmin ▸ he.2⟩
    refine ⟨c', ?_, k1.cons k2, r2⟩
    simp only [extend, hbin, advance_bind, bind_ok, pure_ok]
    exact ⟨right, c', hx, rfl, rfl⟩
  | @comparison op _ _ right hcmp hright =>
    have hmin : Strength.comparison.rightMin o.assoc = o.rightMin := by
      obtain ⟨_, rfl⟩ | ⟨_, rfl⟩ | ⟨-, rfl⟩ | ⟨-, rfl⟩ | ⟨-, rfl⟩ := operator_cases hop
      · cases hcmp
      · cases hcmp
        rfl
      all_goals cases hcmp
    obtain ⟨rfl, k1, r1⟩ := hnext rfl (by simp [hne])
    obtain ⟨c', hx, k2, r2⟩ := hn.expr _ hright hl.tail r1 hne ⟨he.1, hmin ▸ he.2⟩
    refine ⟨c', ?_, k1.cons k2, r2⟩
    simp only [extend, hcmp, advance_bind, bind_ok, pure_ok]
    exact ⟨right, c', hx, rfl, rfl⟩
  | @pair key _ _ value hpair hkey hvalue =>
    obtain ⟨rfl, k1, r1⟩ := hnext rfl (by simp [hne])
    obtain ⟨c', hx, k2, r2⟩ := hn.value _ hvalue hl.tail r1 hne ⟨he.1, he.2⟩
    refine ⟨c', ?_, k1.cons k2, r2⟩
    simp only [extend, hpair]
    exact pair_ok.2 ⟨key, hkey, value, c', hx, rfl, rfl⟩
  | @transition source target _ _ htrans hsource htarget =>
    obtain ⟨rfl, k1, r1⟩ := hnext rfl (by simp [hne])
    obtain ⟨c', hx, k2, r2⟩ := name_complete (s := s) htarget hl.tail r1 hne he
    refine ⟨c', ?_, k1.cons k2, r2⟩
    simp only [extend, htrans]
    refine transition_ok.2 ⟨source, hsource, ?_, target, c', hx, rfl, rfl⟩
    cases htarget with
    | absolute hi => exact .inl (k2.here_eq ▸ hi.kind)
    | relative hd => exact .inr (k2.here_eq ▸ hd)
  | @call args body _ us vs hcall hargs hbody =>
    have hk : t.kind = .openParen := by
      obtain ⟨op', rfl⟩ | ⟨op', rfl⟩ | ⟨-, rfl⟩ | ⟨-, rfl⟩ | ⟨hk, rfl⟩ := operator_cases hop
      case inr.inr.inr.inr => exact hk
      all_goals cases hcall
    have hr : c.rest = t :: us ++ (vs ++ r) := by rw [hr]; simp
    obtain ⟨c1, hx, k1, r1⟩ := arguments_complete (s := s) hn ho hk hargs
      (@Light.left _ _ vs (by simpa using hl)) hr (by simp [hne])
    have hend : body.isNone → s.brace = .expectValue → ¬ Continues .openBrace r := by
      intro hb
      obtain rfl := Option.isNone_iff_eq_none.1 hb
      exact he
    obtain ⟨c2, hy, k2, r2⟩ := trailing_complete hn ho hbody
      (@Light.right _ (t :: us) _ (by simpa using hl)) r1 hne hend
    have hk2 := k1.trans k2
    refine ⟨c2, ?_, hk2, r2⟩
    simp only [extend, hcall]
    refine call_ok.2 ⟨args, c1, hx, body, c2, hy, ?_, rfl⟩
    rw [hk2.spanFrom (by simp)]
    rfl

/-- The loop over operators reads a written expression from its first operand on: whatever it goes
on to do from there, it does from the operand. -/
theorem climbs_complete (hn : nested.Complete k rules) (ho : rules.Opening) {min : Strength}
    {e : Expr} (w : e.Written rules s min ts) :
    ∀ {r}, Light (k + 1) ts → c.rest = ts ++ r → r ≠ [] → e.EndsBefore s r →
      ∃ first c0 m c', operand nested s c = .ok first c0 ∧ c.Takes ts c' ∧ c'.rest = r ∧
        m + c'.rest.length ≤ c0.rest.length ∧
        ∀ {n result cf}, Steps (climb nested min) s c' e n result cf →
          Steps (climb nested min) s c0 first (m + n) result cf := by
  induction w with
  | operand he =>
    intro r hl hr hne hends
    obtain ⟨c', hx, k1, r1⟩ := operand_complete hn ho he hl hr hne hends
    exact ⟨_, c', 0, c', hx, k1, r1, by omega, fun h => by rwa [Nat.zero_add]⟩
  | @extend left e o t ts us hl hle happ he ih =>
    intro r hlight hr hne hends
    rw [List.append_assoc] at hr
    have hafter : AfterWord (t :: us) := happ.afterWord
    have halike := alike_extend us r (.inl (hafter t rfl).1)
    obtain ⟨first, c0, m, c1, hfirst, k1, r1, hm, hsteps⟩ :=
      ih hlight.left hr (by simp) (hle.mono halike.looser)
    obtain ⟨c', hx, k2, r2⟩ := extend_complete hn ho happ.operator he hlight.right r1 hne hends
    have happ' : Applies s min c1.here o := by rwa [k2.here_eq]
    have hclimb : climb nested min left s c1 = .ok (some e) c' :=
      climb_ok.2 (.inr ⟨o, happ', e, hx, rfl⟩)
    have hlen : c'.rest.length + 1 ≤ c1.rest.length := by
      rw [k2.rest, List.length_append, List.length_cons]
      omega
    refine ⟨first, c0, m + 1, c', hfirst, k1.trans k2, r2, by omega, fun {n _ _} h => ?_⟩
    have hmore := hsteps (.more hclimb h)
    rwa [Nat.add_right_comm, Nat.add_assoc]

theorem expr_complete (hn : nested.Complete k rules) (ho : rules.Opening) (min : Strength) :
    Complete (k + 1) (expr nested min) (fun s => Expr.Written rules s min)
      fun s r e => e.Closes s min r := by
  intro s e ts c r w hl hr hne he
  obtain ⟨first, c0, m, c', hfirst, k1, r1, hm, hsteps⟩ := climbs_complete hn ho w hl hr hne he.ends
  have hstop : climb nested min e s c' = .ok none c' := by
    refine climb_ok.2 (.inl ⟨fun o => he.stops c'.here ?_ o, rfl, rfl⟩)
    rw [← r1]
    rfl
  refine ⟨c', expr_ok.2 ⟨first, c0, hfirst, iterate_of_steps (hsteps (.done hstop)) ?_⟩, k1, r1⟩
  have := List.length_pos_iff.2 c'.rest_ne_nil
  omega

end Parser

end Script
