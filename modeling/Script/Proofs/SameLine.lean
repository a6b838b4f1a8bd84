import Script.Proofs.Seats.Statement

/-!
Operators and their lines. Where line breaks end an operand an operator stands on the line of its
left side, and they end nothing only where the innermost bracket is that of a group. The block after
a call stands on the line of the call in any brackets.
-/
namespace Script

open Token

variable {n : Nat} {s : Surroundings} {min : Strength} {t : Token} {ts us : List Token}
  {rules : Rules}

/-- Tokens that have a seat stand among those that are read at one go. -/
theorem Seat.part {x : Accepted} {w : List Token → Prop} (h : Seat x s ts w) :
    Lexed.Part x.source ts := by
  cases h with
  | @whole before after hall => exact ⟨before, after, hall ▸ .whole x.lexed⟩
  | @hole _ before after _ _ hr => exact ⟨before, after, hr⟩

theorem Expr.Written.nameSpan {e : Expr} {name : Name} (h : e.Written rules s min ts)
    (hk : e.kind = .name name) : name.span = e.span := by
  cases h with
  | operand he =>
    cases he with
    | name => cases hk; rfl
    | _ => cases hk
  | extend _ _ _ he => cases he <;> cases hk

/-- A key spans what it was read as. -/
theorem Expr.Written.keySpan {e : Expr} {key : PairKey} (h : e.Written rules s min ts)
    (hk : Parser.pairKey? e = some key) : key.span = e.span := by
  unfold Parser.pairKey? at hk
  split at hk <;> rename_i hkind
  · obtain rfl := Option.some.inj hk
    exact h.nameSpan hkind
  · split at hk
    · cases hk
    · obtain rfl := Option.some.inj hk
      cases h with
      | operand he =>
        cases he with
        | string _ hl => cases hkind; cases hl; rfl
        | @word _ word _ _ hl => cases word <;> cases hl <;> cases hkind
        | _ => cases hkind
      | extend _ _ _ he => cases he <;> cases hkind
  · cases hk

/-- What has a left side is written as that side and what an operator builds of it. -/
theorem Expr.Written.leftSide {e : Expr} {left : Span} (h : e.Written rules s min ts)
    (hl : e.leftSide? = some left) :
    ∃ l o t us vs, ts = us ++ t :: vs ∧ l.Written rules s min us ∧ l.span = left ∧
      Applies s min t o ∧ Expr.Extends rules s l o (t :: vs) e := by
  cases h with
  | operand he => cases he <;> cases hl
  | @extend l e o t us vs hw _ ho he =>
    refine ⟨l, o, t, us, vs, rfl, hw, ?_, ho, he⟩
    cases he with
    | binary => exact Option.some.inj hl
    | comparison => exact Option.some.inj hl
    | pair _ hk => exact (hw.keySpan hk).symm.trans (Option.some.inj hl)
    | transition _ hs => exact (hw.nameSpan hs).symm.trans (Option.some.inj hl)
    | call => exact Option.some.inj hl

/-- The token behind some others is the first one that begins behind all of them. -/
theorem Token.Sorted.behind {before vs : List Token} (h : Sorted (before ++ (us ++ t :: vs)))
    (hsize : ∀ u ∈ before ++ (us ++ t :: vs), 0 < u.text.utf8ByteSize) (hus : us ≠ []) :
    (∀ u ∈ before ++ us, u.start < (spanOf us).stop) ∧ (spanOf us).stop ≤ t.start := by
  obtain ⟨v, hv⟩ : ∃ v, us.getLast? = some v := ⟨_, List.getLast?_eq_some_getLast hus⟩
  obtain ⟨a, us', rfl⟩ := List.exists_cons_of_ne_nil hus
  rw [← List.append_assoc] at h hsize
  obtain ⟨hbefore, -, hacross⟩ := List.pairwise_append.1 h
  rw [Sorted.spanOf_eq (List.pairwise_append.1 hbefore).2.1 rfl hv]
  obtain ⟨ws, hws⟩ := List.getLast?_eq_some_iff.1 hv
  rw [hws, ← List.append_assoc] at hbefore hsize hacross ⊢
  refine ⟨fun u hu => ?_, hacross v (by simp) t (by simp)⟩
  have hpos : u.start < u.stop := Nat.lt_add_of_pos_right (hsize u (List.mem_append_left _ hu))
  exact Nat.lt_of_lt_of_le hpos (Sorted.le_stop hbefore u hu)

/-- Tokens span no more than what holds all of them. -/
theorem Token.Sorted.spanOf_within {v : Token} (h : Sorted ts) (hne : ts ≠ [])
    (hin : ∀ t ∈ ts, v.start ≤ t.start ∧ t.stop ≤ v.stop) :
    v.start ≤ (spanOf ts).start ∧ (spanOf ts).stop ≤ v.stop := by
  obtain ⟨a, ts, rfl⟩ := List.exists_cons_of_ne_nil hne
  obtain ⟨b, hb⟩ : ∃ b, (a :: ts).getLast? = some b := ⟨_, List.getLast?_eq_some_getLast hne⟩
  rw [h.spanOf_eq rfl hb]
  exact ⟨(hin a (by simp)).1, (hin b (List.mem_of_getLast? hb)).2⟩

/-- Where an operator stands that goes on with an expression of the source. -/
theorem Seat.operator {x : Accepted} {w : List Token → Prop} {o : Operator} {vs : List Token}
    (h : Seat x s (us ++ t :: vs) w) (hbalanced : Balanced us) (hus : us ≠ [])
    (ho : Applies s min t o)
    (hout : ∀ v ∈ x.tokens, v.kind.isString = true →
      ¬ (v.start ≤ (spanOf (us ++ t :: vs)).start ∧ (spanOf (us ++ t :: vs)).stop ≤ v.stop)) :
    ∃ before after, x.tokens = before ++ t :: after ∧
      (∀ u ∈ before, u.start < (spanOf us).stop) ∧ (spanOf us).stop ≤ t.start ∧
      (¬ x.program.InGroup before → t.newlineBefore = false) := by
  cases h with
  | @whole before after hall hgroup =>
    obtain ⟨hplaced, hsize⟩ := x.placed
    rw [hall, List.append_assoc, List.cons_append] at hplaced hsize
    obtain ⟨hfirst, hstart⟩ := hplaced.behind hsize hus
    refine ⟨before ++ us, vs ++ after, by simpa using hall, hfirst, hstart, fun hnot => ?_⟩
    cases hnewline : t.newlineBefore with
    | false => rfl
    | true =>
      have hloose : s.breakEnds = false := by simpa [hnewline] using ho.sameLine
      obtain ⟨o, ho, hopens⟩ := hgroup hloose
      refine absurd ⟨o, ?_, hopens⟩ hnot
      rwa [unclosed, List.foldl_append, hbalanced.foldl_enter]
  | @hole v before after hv hk hr hin =>
    obtain ⟨hsorted, -⟩ := Lexed.Part.placed ⟨before, after, hr⟩
    refine absurd (hsorted.spanOf_within (by simp) fun u hu => hin u ?_) (hout v hv hk)
    exact List.mem_append_right _ (List.mem_append_left _ hu)

namespace Program

variable {source : String} {p : Program} {last : Token}

/-- The token behind the left side of an operator outside all string holes, which is the operator,
stands on the line of the token before it unless the innermost bracket is that of a group. The brace
of the block after a call does so anywhere. -/
theorem parse_same_line (h : parse source = .ok p)
    (hl : Lexed.ofString 0 source = ⟨ts, .ok last⟩) :
    (∀ e ∈ p.exprs, ∀ left, e.leftSide? = some left →
      (∀ v ∈ ts, v.kind.isString = true → ¬ (v.start ≤ e.span.start ∧ e.span.stop ≤ v.stop)) →
      ∃ before t after, ts = before ++ t :: after ∧ (∀ u ∈ before, u.start < left.stop) ∧
        left.stop ≤ t.start ∧ (Operator.ofKind? t.kind).isSome ∧
        (¬ p.InGroup before → t.newlineBefore = false)) ∧
      ∀ e ∈ p.exprs, ∀ callee args body, e.kind = .call callee args (some body) →
        ∃ before t after, Lexed.Reading source (before ++ t :: after) ∧
          t.start = body.span.start ∧ t.kind = .openBrace ∧ t.newlineBefore = false := by
  obtain ⟨x, rfl, rfl, rfl, -⟩ := accepted h hl
  refine ⟨fun e he left hleft hout => ?_, fun e he callee args body hk => ?_⟩
  · have hcontrol : ¬ e.IsControl := by
      unfold Expr.IsControl
      unfold Expr.leftSide? at hleft
      split at hleft <;> simp_all
    obtain ⟨n, s, min, ts, hw, hseat⟩ := (x.stands e he).seat hcontrol
    obtain ⟨hsorted, -⟩ := hseat.part.placed
    have hspan := hw.span (Rules.level_spanning n) hsorted
    obtain ⟨l, o, t, us, vs, rfl, hl, rfl, ho, -⟩ := hw.leftSide hleft
    have hbalanced := hl.balanced (Rules.level_balancing n)
    rw [hl.span (Rules.level_spanning n) (List.pairwise_append.1 hsorted).1]
    obtain ⟨before, after, hall, hfirst, hstart, hline⟩ :=
      hseat.operator hbalanced hl.opens.begin.ne_nil ho (hspan ▸ hout)
    exact ⟨before, t, after, hall, hfirst, hstart, by rw [ho.operator]; rfl, hline⟩
  · obtain ⟨kind, span⟩ := e
    obtain rfl : kind = _ := hk
    obtain ⟨n, s, min, ts, hw, hseat⟩ := (x.stands _ he).seat id
    have hh := Lexed.hereditary_part x.source
    cases hw with
    | operand he => cases he
    | extend _ _ _ he =>
      cases he with
      | call _ _ hb =>
        cases hb with
        | some _ hc hb =>
          obtain ⟨before, after, hreading⟩ := hh.right (hh.tail (hh.right hseat.part))
          cases hb with
          | @mk t ts statements ht _ =>
            obtain ⟨u, hu, hline⟩ := hc
            obtain rfl := Option.some.inj hu
            simp only [Parser.continuesWith, Bool.and_eq_true, Bool.not_eq_true'] at hline
            exact ⟨before, t, ts ++ after, hreading, rfl, ht, hline.2⟩

/-- The arrow of a transition in the block after a call. -/
theorem parse_same_line_arrow : ∃ p ts last, parse "f(1) \x7b c -> d \x7d" = .ok p ∧
    Lexed.ofString 0 "f(1) \x7b c -> d \x7d" = ⟨ts, .ok last⟩ ∧
    ∃ before t after, ts = before ++ t :: after ∧ (∀ u ∈ before, u.start < 8) ∧ 8 ≤ t.start ∧
      (Operator.ofKind? t.kind).isSome ∧ t.newlineBefore = false := by
  have hfind : ((parse "f(1) \x7b c -> d \x7d").toOption.any fun p =>
      p.exprs.any (fun e => e.leftSide? == some ⟨7, 8⟩) && p.exprs.all (!·.isGroup)) = true := by
    decide +kernel
  have hplain : (Lexed.ofString 0 "f(1) \x7b c -> d \x7d").tokens.all (!·.kind.isString) =
      true := by decide +kernel
  obtain ⟨p, hp, hfound⟩ := (Option.any_eq_true _ _).1 hfind
  have hp := eq_ok_of_toOption hp
  obtain ⟨ts, last, hl, -⟩ := parse_iff.1 hp
  obtain ⟨hany, hall⟩ := (Bool.and_eq_true _ _).mp hfound
  obtain ⟨e, he, hleft⟩ := List.any_eq_true.1 hany
  rw [hl, List.all_eq_true] at hplain
  obtain ⟨before, t, after, hts, hbefore, hstart, ho, hline⟩ :=
    (parse_same_line hp hl).1 e he _ (beq_iff_eq.1 hleft) fun v hv hk =>
      absurd (hplain v hv) (by simp [hk])
  refine ⟨p, ts, last, hp, hl, before, t, after, hts, hbefore, hstart, ho, hline ?_⟩
  rintro ⟨o, -, g, hg, hgroup, -⟩
  exact absurd (List.all_eq_true.1 hall g hg) (by simp [hgroup])

end Program

end Script
