import Script.Proofs.Lexing
import Script.Proofs.Sound.Names
import Script.Rules.Expression

/-!
What the parsers of expressions take is written as the rules say, given the same of the parsers for
what is nested.
-/
namespace Script

/-- The parsers for what is nested inside a construct are sound for some rules. -/
structure Nested.Sound (nested : Nested) (rules : Rules) : Prop where
  expr : ∀ min, Parser.Sound (nested.expr min) (fun s => rules.expr s min)
    fun s r e => Dotless r → e.Closes s min r
  value : ∀ min, Parser.Sound (nested.value min) (fun s => rules.value s min)
    fun s r e => Dotless r → e.ClosesValue s min r
  statement : Parser.Sound nested.statement rules.statement
    fun s r st => Apart r → st.EndsBefore s r

namespace Parser

variable {nested : Nested} {rules : Rules} {s : Surroundings} {c c' : Cursor}

theorem Sound.weaken {α : Type} {p : Parser α} {written : Surroundings → α → List Token → Prop}
    {ends ends' : Surroundings → List Token → α → Prop} (h : Sound p written ends)
    (hends : ∀ s r a, ends s r a → ends' s r a) : Sound p written ends' := by
  intro s c a c' hc ha
  obtain ⟨ts, k, w, e⟩ := h hc ha
  exact ⟨ts, k, w, hends _ _ _ e⟩

theorem block_sound (hn : nested.Sound rules) :
    Sound (block nested) (fun _ => Block.Written rules) fun _ _ _ => True := by
  intro s c b c' hc h
  obtain ⟨statements, c1, hs, rfl, rfl⟩ := block_ok.1 h
  obtain ⟨ts, k, ho, w⟩ := bracketed_sound hn.statement (fun h hst => h.statement hst)
    ⟨by decide, by decide, by decide⟩ hs hc
  refine ⟨_, k, ?_, trivial⟩
  rw [k.spanOf (by simp)]
  exact .mk ho w

theorem arguments_sound (hn : nested.Sound rules) {args : List Expr}
    (h : arguments nested s c = .ok args c') (hc : c.Ended) :
    ∃ ts, c.Takes (c.here :: ts) c' ∧ c.here.kind = .openParen ∧
      ListWritten [.comma] .closeParen (rules.expr .item .group) (Expr.Closes .item .group)
        args ts :=
  bracketed_sound ((hn.expr .group).weaken fun _ _ _ he ha => he ha.dot)
    (fun h he => he.mono h.looser) ⟨by decide, by decide, by decide⟩ h hc

theorem inHole_ok {α : Type} {p : Parser α} {h : RawHole} {a : α} (ha : inHole h p = .ok a) :
    ∃ ts last, Lexed.ofString h.start h.text = ⟨ts, .ok last⟩ ∧ ∃ c,
      p .item (Cursor.start ts last) = .ok a c ∧ c.here.kind = .endOfText := by
  unfold inHole at ha
  dsimp only at ha
  split at ha
  · cases ha
  · rename_i last hl
    refine ⟨(Lexed.ofString h.start h.text).tokens, last, by rw [← hl], ?_⟩
    split at ha
    · rename_i a' c hwhole
      obtain rfl := Except.ok.inj ha
      simp only [bind_ok, token_bind, ite_eq_ok, pure_ok, reduceCtorEq, and_false, or_false]
        at hwhole
      obtain ⟨_, c1, hp, hk, rfl, -⟩ := hwhole
      exact ⟨c1, hp, hk⟩
    · cases ha

/-- What is read up to the end of a text takes all of its tokens. -/
theorem takes_all {base : Nat} {text : String} {ts us : List Token} {last : Token} {c : Cursor}
    (hl : Lexed.ofString base text = ⟨ts, .ok last⟩) (hk : (Cursor.start ts last).Takes us c)
    (hc : c.here.kind = .endOfText) : us = ts ∧ c.rest = [last] := by
  have hrest : ts ++ [last] = us ++ c.rest := by rw [← Cursor.start_rest, hk.rest]
  rcases List.append_eq_append_iff.1 hrest with ⟨vs, rfl, hvs⟩ | ⟨vs, rfl, hvs⟩
  · cases vs with
    | nil => exact ⟨by simp, hvs.symm⟩
    | cons v vs => simp [Cursor.rest] at hvs
  · cases vs with
    | nil => exact ⟨by simp, by simpa using hvs⟩
    | cons v vs =>
      obtain ⟨rfl, -⟩ := List.cons.inj hvs
      exact absurd hc (Lexed.tokens_kind hl _ (by simp))

theorem start_ended {ts : List Token} {last : Token} (h : last.kind = .endOfText) :
    (Cursor.start ts last).Ended := by
  simp [Cursor.Ended, Cursor.start_rest, h]

theorem part_sound (hn : nested.Sound rules) {x : Piece} {p : StringPart}
    (h : part nested x = .ok p) : p.Written rules x := by
  cases x with
  | text text =>
    obtain rfl := Except.ok.inj h
    exact .text
  | hole x =>
    simp only [part, hole] at h
    split at h <;> rename_i hkind
    · obtain ⟨n, hp, rfl⟩ := map_eq_ok.1 h
      obtain ⟨ts, last, hl, c, hname, hend⟩ := inHole_ok hp
      obtain ⟨us, k, w, -⟩ := name_sound (start_ended (Lexed.last_kind hl)) hname
      exact .nameHole hkind hl ((takes_all hl k hend).1 ▸ w)
    · obtain ⟨e, hp, rfl⟩ := map_eq_ok.1 h
      obtain ⟨ts, last, hl, c, hvalue, hend⟩ := inHole_ok hp
      obtain ⟨us, k, w, -⟩ := hn.value _ (start_ended (Lexed.last_kind hl)) hvalue
      exact .exprHole hkind hl ((takes_all hl k hend).1 ▸ w)

theorem parts_sound (hn : nested.Sound rules) {xs : List Piece} {ps : List StringPart}
    (h : xs.mapM (part nested) = .ok ps) : StringPart.EachWritten rules xs ps := by
  induction xs generalizing ps with
  | nil =>
    simp only [List.mapM_nil] at h
    obtain rfl := Except.ok.inj h
    exact .nil
  | cons x xs ih =>
    rw [List.mapM_cons] at h
    cases hp : part nested x with
    | error e => simp [hp, bind, Except.bind] at h
    | ok p =>
      cases hps : xs.mapM (part nested) with
      | error e => simp [hp, hps, bind, Except.bind] at h
      | ok ps' =>
        simp only [hp, hps, bind, Except.bind, pure, Except.pure, Except.ok.injEq] at h
        subst h
        exact .cons (part_sound hn hp) (ih hps)

theorem literalOf_sound (hn : nested.Sound rules) {t : Token} {l : StringLiteral}
    (h : literalOf nested t = .ok l) : l.Written rules t := by
  unfold literalOf at h
  split at h
  · cases h
  · rename_i decoded hd
    split at h
    · cases h
    · rename_i parts hp
      obtain rfl := Except.ok.inj h
      exact .mk hd (parts_sound hn hp)

theorem named_sound {e : Expr} (hm : MayName c.here) (hc : c.Ended) (h : named s c = .ok e c') :
    ∃ ts, c.Takes ts c' ∧ e.OperandWritten rules s ts ∧
      (Dotless c'.rest → e.EndsBefore s c'.rest) := by
  obtain ⟨n, c1, hname, rfl, rfl⟩ := named_ok.1 h
  obtain ⟨ts, k, w, -⟩ := name_sound hc hname
  refine ⟨ts, k, .name ⟨w, ?_⟩, id⟩
  intro t ht word hword
  cases ts with
  | nil => cases ht
  | cons u us =>
    obtain rfl : u = t := by simpa using ht
    exact hm word (k.here_eq ▸ hword)

theorem group_sound (hn : nested.Sound rules) {e : Expr} (hc : c.Ended)
    (h : group nested s c = .ok e c') :
    ∃ ts, c.Takes ts c' ∧ e.OperandWritten rules s ts ∧ e.EndsBefore s c'.rest := by
  obtain ⟨ho, inner, c1, hi, hk, rfl, rfl⟩ := group_ok.1 h
  have k1 := hc.takes_kind ho (by decide)
  obtain ⟨ts, k2, w, -⟩ := hn.expr _ (hc.of_takes k1) hi
  have k3 := ((hc.of_takes k1).of_takes k2).takes_kind hk (by decide)
  have k := k1.cons (k2.trans k3)
  refine ⟨_, k, ?_, trivial⟩
  rw [k.spanOf (by simp)]
  exact .group ho w hk

theorem array_sound (hn : nested.Sound rules) {e : Expr} (hc : c.Ended)
    (h : array nested s c = .ok e c') :
    ∃ ts, c.Takes ts c' ∧ e.OperandWritten rules s ts ∧ e.EndsBefore s c'.rest := by
  obtain ⟨items, c1, hi, rfl, rfl⟩ := array_ok.1 h
  obtain ⟨ts, k, ho, w⟩ := bracketed_sound ((hn.value .group).weaken fun _ _ _ he ha => he ha.dot)
    (fun h he => he.mono h.looser) ⟨by decide, by decide, by decide⟩ hi hc
  refine ⟨_, k, ?_, trivial⟩
  rw [k.spanOf (by simp)]
  exact .array ho w

theorem object_sound (hn : nested.Sound rules) {e : Expr} (hs : s.brace = .expectValue)
    (hc : c.Ended) (h : object nested s c = .ok e c') :
    ∃ ts, c.Takes ts c' ∧ e.OperandWritten rules s ts ∧ e.EndsBefore s c'.rest := by
  obtain ⟨entries, c1, he, rfl, rfl⟩ := object_ok.1 h
  obtain ⟨ts, k, ho, w⟩ := bracketed_sound hn.statement (fun h hst => h.statement hst)
    ⟨by decide, by decide, by decide⟩ he hc
  refine ⟨_, k, ?_, trivial⟩
  rw [k.spanOf (by simp)]
  exact .object ho hs w

theorem unary_sound (hn : nested.Sound rules) {op : UnaryOp} {e : Expr}
    (ho : UnaryOp.ofKind? c.here.kind = some op) (hc : c.Ended)
    (h : unary nested op s c = .ok e c') :
    ∃ ts, c.Takes ts c' ∧ e.OperandWritten rules s ts ∧
      (Dotless c'.rest → e.EndsBefore s c'.rest) := by
  obtain ⟨operand, c1, he, rfl, rfl⟩ := unary_ok.1 h
  have hk : c.here.kind ≠ .endOfText := by
    intro hk
    rw [hk] at ho
    cases ho
  have k1 := hc.takes hk
  obtain ⟨ts, k2, w, e⟩ := hn.expr _ (hc.of_takes k1) he
  exact ⟨_, k1.cons k2, .unary ho w, fun hd => ⟨(e hd).ends, (e hd).stops⟩⟩

theorem string_sound (hn : nested.Sound rules) {e : Expr} (hk : c.here.kind.isString = true)
    (hc : c.Ended) (h : (do
      let literal ← stringLiteral nested
      return ⟨.literal (.string literal), c.here.span⟩ : Parser Expr) s c = .ok e c') :
    ∃ ts, c.Takes ts c' ∧ e.OperandWritten rules s ts ∧ e.EndsBefore s c'.rest := by
  obtain ⟨l, c1, hs, h⟩ := bind_ok.1 h
  obtain ⟨rfl, rfl⟩ := pure_ok.1 h
  obtain ⟨hl, rfl⟩ := stringLiteral_ok.1 hs
  have hne : c.here.kind ≠ .endOfText := by
    intro hend
    simp [hend, TokenKind.isString] at hk
  exact ⟨_, hc.takes hne, .string hk (literalOf_sound hn hl), trivial⟩

theorem operand_sound (hn : nested.Sound rules) :
    Sound (operand nested) (fun s => Expr.OperandWritten rules s)
      fun s r e => Dotless r → e.EndsBefore s r := by
  intro s c e c' hc h
  have strong : (∃ ts, c.Takes ts c' ∧ e.OperandWritten rules s ts ∧ e.EndsBefore s c'.rest) →
      ∃ ts, c.Takes ts c' ∧ e.OperandWritten rules s ts ∧
        (Dotless c'.rest → e.EndsBefore s c'.rest) :=
    fun ⟨ts, k, w, e⟩ => ⟨ts, k, w, fun _ => e⟩
  rw [operand, here_bind] at h
  cases ho : UnaryOp.ofKind? c.here.kind with
  | some op =>
    simp only [ho] at h
    exact unary_sound hn ho hc h
  | none =>
    simp only [ho] at h
    cases hk : c.here.kind <;> simp only [hk] at h
    case ident =>
      obtain ⟨word, literal, hw, hl, rfl, rfl⟩ | ⟨hm, h⟩ := wordOperand_ok.1 h
      · exact ⟨_, hc.takes_kind hk (by decide), .word hw hl, fun _ => trivial⟩
      · exact named_sound hm hc h
    case dot =>
      refine named_sound ?_ hc h
      intro word hw
      simp [Token.keyword?, hk] at hw
    case number kind =>
      simp only [advance_bind, pure_ok] at h
      obtain ⟨rfl, rfl⟩ := h
      exact ⟨_, hc.takes_kind hk (by simp), .number hk, fun _ => trivial⟩
    case openParen => exact strong (group_sound hn hc h)
    case openBracket => exact strong (array_sound hn hc h)
    case openBrace =>
      rw [surroundings_bind, ite_apply, ite_eq_ok] at h
      obtain ⟨hr, h⟩ | ⟨-, h⟩ := h
      · have hs : s.brace = .expectValue := by
          cases hs : s.brace with
          | expectBlock => simp [hs, BraceContext.role] at hr
          | expectValue => rfl
        exact strong (object_sound hn hs hc h)
      · exact absurd h fail_ok
    case plainString => exact strong (string_sound hn (by simp [hk, TokenKind.isString]) hc h)
    case rawString => exact strong (string_sound hn (by simp [hk, TokenKind.isString]) hc h)
    case formattedString => exact strong (string_sound hn (by simp [hk, TokenKind.isString]) hc h)
    all_goals exact absurd h unexpected_ok

theorem trailing_sound (hn : nested.Sound rules) :
    Sound (trailingBlock nested) (fun s => Block.TrailingWritten rules s) fun s r o =>
      o.isNone → s.brace = .expectValue → ¬ Continues .openBrace r := by
  intro s c o c' hc h
  obtain ⟨hs, hcont, b, c1, hb, rfl, rfl⟩ | ⟨hnot, rfl, rfl⟩ := trailingBlock_ok.1 h
  · obtain ⟨ts, k, w, -⟩ := block_sound hn hc hb
    refine ⟨ts, k, .some hs ?_ w, by simp⟩
    cases w with
    | mk => exact ⟨_, rfl, k.here_eq ▸ hcont⟩
  · exact ⟨[], .refl c, .none, fun _ hs hr => hnot ⟨hs, Cursor.continues_rest.1 hr⟩⟩

theorem extend_sound (hn : nested.Sound rules) {left e : Expr} {o : Operator}
    (ho : Operator.ofKind? c.here.kind = some o) (hc : c.Ended)
    (h : extend nested left o s c = .ok e c') :
    ∃ ts, c.Takes (c.here :: ts) c' ∧ Expr.Extends rules s left o (c.here :: ts) e ∧
      (Dotless c'.rest → e.EndsBefore s c'.rest) := by
  have hk : c.here.kind ≠ .endOfText := by
    intro hk
    rw [hk] at ho
    cases ho
  have k1 := hc.takes hk
  obtain ⟨op, rfl⟩ | ⟨op, rfl⟩ | ⟨-, rfl⟩ | ⟨-, rfl⟩ | ⟨hp, rfl⟩ := operator_cases ho
  · simp only [extend, advance_bind, bind_ok, pure_ok] at h
    obtain ⟨right, c1, hr, rfl, rfl⟩ := h
    obtain ⟨ts, k2, w, e⟩ := hn.expr _ (hc.of_takes k1) hr
    exact ⟨ts, k1.cons k2, .binary rfl w, fun hd => ⟨(e hd).ends, (e hd).stops⟩⟩
  · simp only [extend, advance_bind, bind_ok, pure_ok] at h
    obtain ⟨right, c1, hr, rfl, rfl⟩ := h
    obtain ⟨ts, k2, w, e⟩ := hn.expr _ (hc.of_takes k1) hr
    exact ⟨ts, k1.cons k2, .comparison rfl w, fun hd => ⟨(e hd).ends, (e hd).stops⟩⟩
  · obtain ⟨key, hkey, value, c1, hv, rfl, rfl⟩ := pair_ok.1 h
    obtain ⟨ts, k2, w, e⟩ := hn.value _ (hc.of_takes k1) hv
    exact ⟨ts, k1.cons k2, .pair rfl hkey w, fun hd => ⟨(e hd).ends, (e hd).stops⟩⟩
  · obtain ⟨source, hsource, -, target, c1, ht, rfl, rfl⟩ := transition_ok.1 h
    obtain ⟨ts, k2, w, -⟩ := name_sound (hc.of_takes k1) ht
    exact ⟨ts, k1.cons k2, .transition rfl hsource w, id⟩
  · obtain ⟨args, c1, ha, body, c2, hb, rfl, rfl⟩ := call_ok.1 h
    obtain ⟨ts, k2, -, w⟩ := arguments_sound hn ha hc
    obtain ⟨us, k3, w', e⟩ := trailing_sound hn (hc.of_takes k2) hb
    have k := k2.trans k3
    refine ⟨ts ++ us, k, ?_, ?_⟩
    · rw [k.spanFrom (by simp)]
      exact .call rfl w w'
    · cases body with
      | none => exact fun _ => e rfl
      | some body => exact fun _ => trivial

theorem climbs_sound (hn : nested.Sound rules) {min : Strength} {n : Nat} {left e : Expr}
    (h : Steps (climb nested min) s c left n e c') (hc : c.Ended) :
    ∀ {c0 ts}, Cursor.Takes c0 ts c → left.Written rules s min ts →
      (Dotless c.rest → left.EndsBefore s c.rest) →
      ∃ us, c0.Takes us c' ∧ e.Written rules s min us ∧
        (Dotless c'.rest → e.Closes s min c'.rest) := by
  induction h with
  | @done c c' left h =>
    intro c0 ts k w he
    obtain ⟨hstop, -, rfl⟩ | ⟨o, -, e, -, h⟩ := climb_ok.1 h
    · refine ⟨ts, k, w, fun hd => ⟨he hd, ?_⟩⟩
      intro t ht
      obtain rfl : c.here = t := by simpa [Cursor.rest] using ht
      exact hstop
    · cases h
  | @more c c1 c' left e r n h hs ih =>
    intro c0 ts k w he
    obtain ⟨-, hnone, -⟩ | ⟨o, ho, e', hx, heq⟩ := climb_ok.1 h
    · cases hnone
    · obtain rfl := Option.some.inj heq
      obtain ⟨us, k1, w1, e1⟩ := extend_sound hn ho.operator hc hx
      have hdot : Dotless c.rest := by
        rintro ⟨t, ht, hk⟩
        obtain rfl : c.here = t := by simpa [Cursor.rest] using ht
        have hop := ho.operator
        rw [continuesWith_kind hk] at hop
        cases hop
      have hends := (he hdot).mono (Alike.looser (k1.rest ▸ alike_append (by simp) _))
      exact ih (hc.of_takes k1) (k.trans k1) (.extend w hends ho w1) e1

theorem expr_sound (hn : nested.Sound rules) (min : Strength) :
    Sound (expr nested min) (fun s => Expr.Written rules s min)
      fun s r e => Dotless r → e.Closes s min r := by
  intro s c e c' hc h
  obtain ⟨first, c1, hf, hi⟩ := expr_ok.1 h
  obtain ⟨ts, k, w, e1⟩ := operand_sound hn hc hf
  obtain ⟨n, hsteps⟩ := steps_of_iterate hi
  exact climbs_sound hn hsteps (hc.of_takes k) k (.operand w) e1

end Parser

end Script
