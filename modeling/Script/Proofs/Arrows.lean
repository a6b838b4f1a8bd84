import Script.Proofs.Balanced
import Script.Proofs.Complete.Statement
import Script.Proofs.Nodes.Statement
import Script.Proofs.Readings
import Script.Tree.Heads
import Script.Tree.Spine

/-!
The arrow of a case. A pattern is read above the level of transitions, so that an arrow ends it.
Only the value of a pair is read down to that level again, and takes an arrow that follows it.
-/
namespace Script

open Token

variable {k : Nat} {t v : Token} {ts us : List Token} {s : Surroundings} {min : Strength}

theorem Name.Written.not_arrow {n : Name} (h : n.Written ts) : ∀ t ∈ ts, t.kind ≠ .arrow := by
  intro t ht
  rcases h.kinds t ht with hk | hk <;> simp [hk]

theorem Expr.spine_self (e : Expr) : e ∈ e.spine := by
  unfold Expr.spine
  split <;> simp

/-- What is read above the level of transitions has none on its spine. -/
structure Rules.Steady (rules : Rules) : Prop where
  expr : ∀ {s min e ts}, rules.expr s min e ts → .pair ≤ min →
    ∀ x ∈ e.spine, x.isTransition = false

/-- The tokens at `k` are arrows on the spine only in the value of a pair. -/
structure Rules.Arrows (k : Nat) (rules : Rules) : Prop where
  balancing : rules.Balancing
  spanning : rules.Spanning
  expr : ∀ {s min e ts}, rules.expr s min e ts → .pair ≤ min → Sorted ts → Shallow k ts →
    ∀ t ∈ ts, t.start = k → t.kind = .arrow → e.InPairValue t

theorem Strength.le_rightMin (a : Strength) (assoc : Assoc) : a ≤ a.rightMin assoc := by
  cases assoc <;> cases a <;> decide

/-- An operator above the level of transitions is no arrow and builds no transition. -/
theorem Applies.above {o : Operator} (h : Applies s min t o) (hmin : .pair ≤ min) :
    .pair ≤ o.rightMin ∧ t.kind ≠ .arrow ∧ o.op ≠ .transition := by
  have hle : .pair ≤ o.strength := Nat.le_trans hmin (Nat.not_lt.1 h.strong)
  have hnot : ¬ Strength.pair ≤ .transition := by decide
  refine ⟨Nat.le_trans hle (Strength.le_rightMin _ _), fun hk => ?_, fun hop => ?_⟩
  · have ho := h.operator
    rw [hk] at ho
    obtain rfl := Option.some.inj ho
    exact hnot hle
  · obtain ⟨op, rfl⟩ | ⟨op, rfl⟩ | ⟨-, rfl⟩ | ⟨-, rfl⟩ | ⟨-, rfl⟩ :=
      Parser.operator_cases h.operator
    case inr.inr.inr.inl => exact hnot hle
    all_goals cases hop

namespace Rules.Steady

variable {rules : Rules} (hr : rules.Steady)
include hr

theorem operand {e : Expr} (h : e.OperandWritten rules s ts) :
    ∀ x ∈ e.spine, x.isTransition = false := by
  cases h with
  | unary _ ho =>
    rw [Expr.spine, List.forall_mem_cons]
    exact ⟨rfl, hr.expr ho (by decide)⟩
  | _ =>
    intro x hx
    obtain rfl := List.mem_singleton.1 hx
    rfl

theorem written {e : Expr} (h : e.Written rules s min ts) (hmin : .pair ≤ min) :
    ∀ x ∈ e.spine, x.isTransition = false := by
  induction h with
  | operand he => exact hr.operand he
  | @extend left e o t ts us _ _ ho he ih =>
    obtain ⟨hright, -, hne⟩ := ho.above hmin
    cases he with
    | binary _ hw =>
      rw [Expr.spine, List.forall_mem_cons, List.forall_mem_append]
      exact ⟨rfl, ih, hr.expr hw hright⟩
    | comparison _ hw =>
      rw [Expr.spine, List.forall_mem_cons, List.forall_mem_append]
      exact ⟨rfl, ih, hr.expr hw hright⟩
    | pair =>
      intro x hx
      obtain rfl := List.mem_singleton.1 hx
      rfl
    | transition hop => exact absurd hop hne
    | call =>
      rw [Expr.spine, List.forall_mem_cons]
      exact ⟨rfl, ih⟩

end Rules.Steady

theorem Rules.level_steady : ∀ n, (Rules.level n).Steady
  | 0 => ⟨False.elim⟩
  | n + 1 => ⟨fun h => (level_steady n).written h⟩

theorem Expr.InPairValue.mono {e e' : Expr} (h : e.InPairValue t)
    (hsub : ∀ x ∈ e.spine, x ∈ e'.spine) : e'.InPairValue t := by
  obtain ⟨x, hx, hpair⟩ := h
  exact ⟨x, hsub x hx, hpair⟩

/-- What is read as a key has no pair on its spine. -/
theorem Expr.not_inPairValue {e : Expr} {key : PairKey} (h : Parser.pairKey? e = some key) :
    ¬ e.InPairValue t := by
  obtain ⟨kind, span⟩ := e
  rintro ⟨x, hx, key', value, hk, -⟩
  unfold Parser.pairKey? at h
  split at h <;> rename_i hkind
  · obtain rfl : kind = _ := hkind
    obtain rfl := List.mem_singleton.1 hx
    cases hk
  · obtain rfl : kind = _ := hkind
    obtain rfl := List.mem_singleton.1 hx
    cases hk
  · cases h

namespace Rules.Arrows

variable {rules : Rules} (hr : rules.Arrows k)
include hr

theorem block {body : Block} (h : body.Written rules ts) (hk : Shallow k ts) :
    ∀ t ∈ ts, t.start = k → t.kind ≠ .arrow := by
  cases h with
  | mk ht hs =>
    have hinside := hs.shallow (by rw [ht]; rfl) (by decide) hr.balancing.statement hk
    rw [List.forall_mem_cons, ht]
    exact ⟨fun _ => by decide, fun v hv hvk => absurd hvk (hinside v hv)⟩

theorem operand {e : Expr} (h : e.OperandWritten rules s ts) (hts : Sorted ts)
    (hk : Shallow k ts) : ∀ t ∈ ts, t.start = k → t.kind = .arrow → e.InPairValue t := by
  have hfirst : ∀ {t : Token} {ts : List Token}, t.kind ≠ .arrow → (∀ v ∈ ts, v.start ≠ k) →
      ∀ v ∈ t :: ts, v.start = k → v.kind = .arrow → e.InPairValue v := by
    intro t ts ht hts
    rw [List.forall_mem_cons]
    exact ⟨fun _ ha => absurd ha ht, fun v hv hvk => absurd hvk (hts v hv)⟩
  cases h with
  | unary ht ho =>
    obtain ⟨hopen, hclose⟩ := UnaryOp.plain_of_kind ht
    rw [List.forall_mem_cons]
    refine ⟨fun _ ha => ?_, fun v hv hvk ha => ?_⟩
    · rw [ha] at ht
      cases ht
    · have hin := hr.expr ho (by decide) hts.tail (hk.tail hopen hclose) v hv hvk ha
      exact hin.mono fun x hx => List.mem_cons_of_mem _ hx
  | word ht => exact hfirst (by rw [kind_of_keyword? ht]; decide) nofun
  | name hn => exact fun v hv _ ha => absurd ha (hn.name.not_arrow v hv)
  | number ht => exact hfirst (by rw [ht]; nofun) nofun
  | string ht =>
    refine hfirst (fun ha => ?_) nofun
    rw [ha] at ht
    cases ht
  | group ht hi hu =>
    have hopen := congrArg TokenKind.isOpener ht
    exact hfirst (by rw [ht]; decide) (hk.closed hopen (hr.balancing.expr hi))
  | array ht hi =>
    exact hfirst (by rw [ht]; decide)
      (hi.shallow (by rw [ht]; rfl) (by decide) hr.balancing.value hk)
  | object ht _ he =>
    exact hfirst (by rw [ht]; decide)
      (he.shallow (by rw [ht]; rfl) (by decide) hr.balancing.statement hk)

theorem extend {left e : Expr} {o : Operator} (h : Expr.Extends rules s left o (t :: ts) e)
    (ho : Applies s min t o) (hmin : .pair ≤ min) (hts : Sorted ts) (hk : Shallow k (t :: ts)) :
    ∀ v ∈ ts, v.start = k → v.kind = .arrow → e.InPairValue v := by
  obtain ⟨hright, hne, htransition⟩ := ho.above hmin
  intro v hv hvk ha
  cases h with
  | binary hop hw =>
    obtain ⟨hopen, hclose⟩ := Operator.plain_of_kind ho.operator (by simp [hop])
    refine (hr.expr hw hright hts (hk.tail hopen hclose) v hv hvk ha).mono fun x hx => ?_
    exact List.mem_cons_of_mem _ (List.mem_append_right _ hx)
  | comparison hop hw =>
    obtain ⟨hopen, hclose⟩ := Operator.plain_of_kind ho.operator (by simp [hop])
    refine (hr.expr hw hright hts (hk.tail hopen hclose) v hv hvk ha).mono fun x hx => ?_
    exact List.mem_cons_of_mem _ (List.mem_append_right _ hx)
  | pair _ _ hw =>
    refine ⟨_, Expr.spine_self _, _, _, rfl, ?_⟩
    rw [hr.spanning.value hw hts]
    exact hts.within hv
  | transition hop => exact absurd hop htransition
  | @call args body _ us vs hop hargs hb =>
    have hopen := Operator.opener_of_kind ho.operator hop
    rw [← List.cons_append] at hk
    have hinside := hargs.shallow hopen (by decide) hr.balancing.expr hk.left
    have hbalanced := hargs.enclosed hopen (by decide) rfl hr.balancing.expr
    rcases List.mem_append.1 hv with hv | hv
    · exact absurd hvk (hinside v hv)
    · cases hb with
      | none => cases hv
      | some _ _ hb => exact absurd ha (hr.block hb (hk.right hbalanced) v hv hvk)

theorem written {e : Expr} (h : e.Written rules s min ts) (hmin : .pair ≤ min) (hts : Sorted ts)
    (hk : Shallow k ts) : ∀ t ∈ ts, t.start = k → t.kind = .arrow → e.InPairValue t := by
  induction h with
  | operand he => exact hr.operand he hts hk
  | @extend left e o t ts us hl _ ho he ih =>
    obtain ⟨hleft, hright, -⟩ := List.pairwise_append.1 hts
    have hbalanced := hl.balanced hr.balancing
    have hext := hr.extend he ho hmin hright.tail (hk.right hbalanced)
    rw [List.forall_mem_append, List.forall_mem_cons]
    refine ⟨fun v hv hvk ha => ?_, fun _ ha => absurd ha (ho.above hmin).2.1, hext⟩
    have hin := ih hleft hk.left v hv hvk ha
    cases he with
    | binary => exact hin.mono fun x hx => List.mem_cons_of_mem _ (List.mem_append_left _ hx)
    | comparison => exact hin.mono fun x hx => List.mem_cons_of_mem _ (List.mem_append_left _ hx)
    | pair _ hkey => exact absurd hin (Expr.not_inPairValue hkey)
    | transition hop => exact absurd hop (ho.above hmin).2.2
    | call => exact hin.mono fun x hx => List.mem_cons_of_mem _ hx

end Rules.Arrows

theorem Rules.level_arrows (k : Nat) : ∀ n, (Rules.level n).Arrows k
  | 0 => ⟨Rules.level_balancing 0, Rules.level_spanning 0, False.elim⟩
  | n + 1 => ⟨Rules.level_balancing (n + 1), Rules.level_spanning (n + 1),
      fun h => (level_arrows k n).written h⟩

/-- The cases of a `when` are written as neighbours among its tokens. -/
theorem WhenCase.EachWritten.parts {P : List Token → Prop} (hh : Hereditary P) {rules : Rules}
    {o : Option CaseBody} {cs : List WhenCase} (h : WhenCase.EachWritten rules o cs ts)
    (hp : P ts) : ∀ c ∈ cs, ∃ us, c.Written rules .item us ∧ P us := by
  induction h with
  | done => nofun
  | separated hc _ _ _ ih =>
    rw [List.forall_mem_cons]
    exact ⟨⟨_, hc, hh.left hp⟩, ih (hh.tail (hh.right hp))⟩
  | unseparated hc _ _ _ _ ih =>
    rw [List.forall_mem_cons]
    exact ⟨⟨_, hc, hh.left hp⟩, ih (hh.right hp)⟩

/-- The kind of token that the body of a case begins with. -/
def CaseBody.opener : CaseBody → TokenKind
  | .arrow _ => .arrow
  | .block _ => .openBrace

theorem CaseBody.Written.head {rules : Rules} {body : CaseBody} (h : body.Written rules s ts) :
    ts.head?.map Token.kind = some body.opener := by
  cases h with
  | arrow ht => exact congrArg some ht
  | block hb =>
    cases hb with
    | mk ht => exact congrArg some ht

namespace Program

/-- Behind `is`, up to the body of the case, an arrow that no brackets stand around is part of the
value of a pair. So in a pattern without pairs the first arrow after `is` is that of the case, and
no pattern is a transition. -/
theorem parse_patterns {source : String} {p : Program} {w : WhenStmt} {c : WhenCase}
    (h : parse source = .ok p) (hw : .whenStmt w ∈ p.nodes) (hc : c ∈ w.cases) :
    (∀ x ∈ c.pattern.spine, x.isTransition = false) ∧
      ∃ before first ts us after, Lexed.Reading source (before ++ (first :: (ts ++ us) ++ after)) ∧
        first.keyword? = some .isWord ∧ c.span = spanOf (first :: (ts ++ us)) ∧
        c.pattern.span = spanOf ts ∧ us.head?.map Token.kind = some c.body.opener ∧
        ∀ a t b, ts = a ++ t :: b → unclosed a = [] → t.kind = .arrow →
          c.pattern.InPairValue t := by
  obtain ⟨all, last, hlexed, hp⟩ := parse_iff.1 h
  have hall : Lexed.Part source all := ⟨[], [], by simpa using .whole hlexed⟩
  obtain ⟨n, s, vs, hvs, hwhen⟩ := hp.nodes (Lexed.hereditary_part source) hall _ hw
  have hh := Lexed.hereditary_part source
  obtain ⟨us, hrest, hcase⟩ :
      ∃ us, Lexed.Part source us ∧ c.Written (Rules.level n) .item us := by
    cases hwhen with
    | mk _ _ _ _ hcases =>
      obtain ⟨us, hw, hp⟩ := hcases.parts hh (hh.tail (hh.right (hh.right (hh.tail hvs)))) c hc
      exact ⟨us, hp, hw⟩
  obtain ⟨before, after, hreading⟩ := hrest
  cases hcase with
  | @mk first ts us pattern body ht hpattern _ hbody =>
    have hpart : Lexed.Part source ts := hh.left (hh.tail ⟨before, after, hreading⟩)
    obtain ⟨hsorted, hsize⟩ := hpart.placed
    refine ⟨(Rules.level_steady n).expr hpattern (by decide), before, first, ts, us, after,
      hreading, ht, rfl, (Rules.level_spanning n).expr hpattern hsorted, hbody.head, ?_⟩
    rintro a t b rfl ha hk
    exact (Rules.level_arrows t.start n).expr hpattern (by decide) hsorted
      (hsorted.shallow hsize ha) t (by simp) rfl hk

theorem exists_case {source : String} {test : WhenCase → Bool}
    (h : (parse source).toOption.any (fun p => p.nodes.any fun
      | .whenStmt w => w.cases.any test
      | _ => false) = true) :
    ∃ p w c, parse source = .ok p ∧ .whenStmt w ∈ p.nodes ∧ c ∈ w.cases ∧ test c = true := by
  obtain ⟨p, hp, hany⟩ := (Option.any_eq_true _ _).1 h
  obtain ⟨x, hx, hcases⟩ := List.any_eq_true.1 hany
  split at hcases
  · rename_i w
    obtain ⟨c, hc, htest⟩ := List.any_eq_true.1 hcases
    exact ⟨p, w, c, eq_ok_of_toOption hp, hx, hc, htest⟩
  · cases hcases

/-- A pattern with an arrow in its brackets. -/
theorem parse_patterns_call : ∃ p w c, parse "when x \x7b is a + f(b -> c) -> d \x7d" = .ok p ∧
    .whenStmt w ∈ p.nodes ∧ c ∈ w.cases ∧ ∀ x ∈ c.pattern.spine, x.isTransition = false := by
  have hfind : ∃ p w c, parse "when x \x7b is a + f(b -> c) -> d \x7d" = .ok p ∧
      .whenStmt w ∈ p.nodes ∧ c ∈ w.cases ∧ (fun _ => true) c = true :=
    exists_case (by decide +kernel)
  obtain ⟨p, w, c, hp, hw, hc, -⟩ := hfind
  exact ⟨p, w, c, hp, hw, hc, (parse_patterns hp hw hc).1⟩

/-- The value of a pair takes the only arrow after this `is`, so that a transition is met in the
pattern outside all brackets. -/
theorem pattern_transition : ∃ p w c, parse "when x \x7b is a: b -> c \x7b \x7d \x7d" = .ok p ∧
    .whenStmt w ∈ p.nodes ∧ c ∈ w.cases ∧ c.pattern.surface.any Expr.isTransition = true :=
  exists_case (by decide +kernel)

end Program

end Script
