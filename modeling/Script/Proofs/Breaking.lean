import Script.Proofs.Readings
import Script.Proofs.Balanced
import Script.Proofs.Complete.Statement
import Script.Proofs.Exprs
import Script.Proofs.Rebroken
import Script.Tree.Lines

/-!
A line break before a token. Where line breaks end nothing, an expression is written as before when
a line break is put before one of its tokens that no brackets stand around, unless this token is
tied to the line of the one before it.
-/
namespace Script

open Token

variable {k : Nat} {t u : Token} {ts us : List Token} {s : Surroundings} {min : Strength}

namespace Token

/-- The token at `k` begins a line. -/
def breakAt (k : Nat) (t : Token) : Token :=
  if t.start = k then { t with newlineBefore := true } else t

theorem breakAt_ne (h : t.start ≠ k) : t.breakAt k = t := if_neg h

theorem breakAt_cases (k : Nat) (t : Token) :
    t.breakAt k = t ∨ t.breakAt k = { t with newlineBefore := true } := by
  unfold breakAt
  split
  · exact .inr rfl
  · exact .inl rfl

@[simp] theorem breakAt_kind : (t.breakAt k).kind = t.kind := by
  rcases breakAt_cases k t with h | h <;> rw [h]

@[simp] theorem breakAt_text : (t.breakAt k).text = t.text := by
  rcases breakAt_cases k t with h | h <;> rw [h]

@[simp] theorem breakAt_start : (t.breakAt k).start = t.start := by
  rcases breakAt_cases k t with h | h <;> rw [h]

@[simp] theorem breakAt_span : (t.breakAt k).span = t.span := by
  rcases breakAt_cases k t with h | h
  · rw [h]
  · rw [h]
    rfl

@[simp] theorem breakAt_keyword? : (t.breakAt k).keyword? = t.keyword? := by
  rcases breakAt_cases k t with h | h
  · rw [h]
  · rw [h]
    rfl

theorem breakAt_unbroken : (t.breakAt k).unbroken = t.unbroken := by
  rcases breakAt_cases k t with h | h
  · rw [h]
  · rw [h]
    rfl

/-- What goes on with something on its line did so before the line break was put in. -/
theorem continues_of_breakAt {kind : TokenKind}
    (h : Parser.continuesWith kind (t.breakAt k) = true) :
    Parser.continuesWith kind t = true := by
  rcases breakAt_cases k t with ht | ht
  · rwa [ht] at h
  · rw [ht, Parser.continuesWith, Bool.not_true, Bool.and_false] at h
    cases h

/-- The tokens with a line break before the one at `k`. -/
def breakIn (k : Nat) (ts : List Token) : List Token := ts.map (breakAt k)

@[simp] theorem breakIn_nil : breakIn k [] = [] := rfl

@[simp] theorem breakIn_cons (t : Token) (ts : List Token) :
    breakIn k (t :: ts) = t.breakAt k :: breakIn k ts := rfl

@[simp] theorem breakIn_append (ts us : List Token) :
    breakIn k (ts ++ us) = breakIn k ts ++ breakIn k us := List.map_append

theorem breakIn_same (ts : List Token) : (breakIn k ts).map unbroken = ts.map unbroken := by
  rw [breakIn, List.map_map]
  exact List.map_congr_left fun t _ => breakAt_unbroken

theorem spanOf_breakIn (ts : List Token) : spanOf (breakIn k ts) = spanOf ts :=
  spanOf_congr (breakIn_same ts)

theorem breakIn_eq (h : ∀ t ∈ ts, t.start ≠ k) : breakIn k ts = ts :=
  (List.map_congr_left fun t ht => breakAt_ne (h t ht)).trans (List.map_id' ts)

/-- Tokens that stand one after the other, with the one at `k` in none of their brackets. -/
structure Exposed (k : Nat) (ts : List Token) : Prop where
  sorted : Sorted ts
  solid : ∀ t ∈ ts, 0 < t.text.utf8ByteSize
  shallow : Shallow k ts

namespace Exposed

theorem left (h : Exposed k (ts ++ us)) : Exposed k ts :=
  ⟨(List.pairwise_append.1 h.sorted).1, fun t ht => h.solid t (List.mem_append_left _ ht),
    h.shallow.left⟩

theorem right (h : Exposed k (ts ++ us)) (hts : Balanced ts) : Exposed k us :=
  ⟨(List.pairwise_append.1 h.sorted).2.1, fun t ht => h.solid t (List.mem_append_right _ ht),
    h.shallow.right hts⟩

theorem tail (h : Exposed k (t :: ts)) (ht : t.kind.isOpener = false ∧ t.kind.isCloser = false) :
    Exposed k ts :=
  @right k [t] ts h (.single ht.1 ht.2)

end Exposed

end Token

/-- A position that no span holds which is tied to the line before it. -/
def Span.Spares (s : Span) (k : Nat) : Prop := ¬ (s.start ≤ k ∧ k < s.stop)

/-- A position at which nothing in these expressions is tied to the line before it. -/
def Untied (k : Nat) (es : List Expr) : Prop := ∀ e ∈ es, ∀ s ∈ e.ties, s.Spares k

theorem Token.Exposed.spared (h : Exposed k ts) {a : Nat}
    (hk : Span.Spares ⟨a, (spanOf ts).stop⟩ k) (ht : t ∈ ts) (ha : a ≤ t.start) : t.start ≠ k := by
  rintro rfl
  refine hk ⟨ha, Nat.lt_of_lt_of_le ?_ (h.sorted.within ht).2⟩
  exact Nat.lt_add_of_pos_right (h.solid t ht)

section Follow

variable {r : List Token}

theorem AtElse.of_breakIn (h : AtElse (breakIn k r)) : AtElse r := by
  obtain ⟨t, u, us, hr, ht, hu⟩ := h
  match r, hr with
  | v :: w :: r, hr =>
    obtain ⟨hv, hr⟩ := List.cons.inj hr
    obtain ⟨hw, -⟩ := List.cons.inj hr
    rw [← hv, breakAt_keyword?] at ht
    rw [← hw, breakAt_kind] at hu
    exact ⟨v, w, r, rfl, ht, hu⟩

/-- A line break before a token does not make it go on with what stands before it. -/
theorem looser_breakIn (hs : s.breakEnds = false) (r : List Token) : Looser s r (breakIn k r) := by
  have hcontinues : ∀ {kind}, Continues kind (breakIn k r) → Continues kind r := by
    rintro kind ⟨t, ht, hk⟩
    rw [breakIn, List.head?_map] at ht
    obtain ⟨u, hu, rfl⟩ := Option.map_eq_some_iff.1 ht
    exact ⟨u, hu, continues_of_breakAt hk⟩
  refine ⟨hcontinues, fun _ => hcontinues, fun min h t ht o ho => ?_, .of_breakIn⟩
  rw [breakIn, List.head?_map] at ht
  obtain ⟨u, hu, rfl⟩ := Option.map_eq_some_iff.1 ht
  exact h u hu o ⟨by simp [hs], by simpa using ho.operator, ho.strong⟩

theorem Applies.breakAt {o : Operator} (hs : s.breakEnds = false) (h : Applies s min t o) :
    Applies s min (t.breakAt k) o :=
  ⟨by simp [hs], by simpa using h.operator, h.strong⟩

end Follow

section Names

theorem Ident.Written.breakAt {i : Ident} (h : i.Written t) : i.Written (t.breakAt k) :=
  ⟨by simpa using h.kind, by simpa using h.eq⟩

theorem Ident.Written.stop {i : Ident} (h : i.Written t) : i.span.stop = t.stop := by
  rw [h.eq]
  rfl

theorem Name.Written.breakIn {n : Name} (h : n.Written ts) (hk : Exposed k ts)
    (hn : n.tie.Spares k) : n.Written (Token.breakIn k ts) := by
  have hspan := @spanOf_breakIn k ts
  cases h with
  | @absolute t i is ts hi his =>
    have hrest : ∀ v ∈ ts, v.start ≠ k := by
      intro v hv
      refine hk.spared hn (List.mem_cons_of_mem _ hv) ?_
      show i.span.stop ≤ v.start
      rw [hi.stop]
      exact (List.pairwise_cons.1 hk.sorted).1 v hv
    rw [← hspan, breakIn_cons, breakIn_eq hrest]
    exact .absolute hi.breakAt his
  | @relative d t i is ts hd hi his =>
    have hrest : ∀ v ∈ ts, v.start ≠ k := by
      intro v hv
      refine hk.spared hn (List.mem_cons_of_mem _ (List.mem_cons_of_mem _ hv)) ?_
      show i.span.stop ≤ v.start
      rw [hi.stop]
      exact (List.pairwise_cons.1 (List.pairwise_cons.1 hk.sorted).2).1 v hv
    rw [← hspan, breakIn_cons, breakIn_cons, breakIn_eq hrest]
    exact .relative (by simpa using hd) hi.breakAt his

theorem Name.WrittenOperand.breakIn {n : Name} (h : n.WrittenOperand ts) (hk : Exposed k ts)
    (hn : n.tie.Spares k) : n.WrittenOperand (Token.breakIn k ts) := by
  refine ⟨h.name.breakIn hk hn, fun t ht => ?_⟩
  rw [Token.breakIn, List.head?_map] at ht
  obtain ⟨u, hu, rfl⟩ := Option.map_eq_some_iff.1 ht
  rw [breakAt_keyword?]
  exact h.free u hu

theorem TypeRef.AnnotationWritten.spared {o : Option TypeRef} (h : TypeRef.AnnotationWritten o ts)
    (hk : Exposed k ts) (ho : ∀ type ∈ o, type.span.Spares k) : ∀ t ∈ ts, t.start ≠ k := by
  cases h with
  | none => nofun
  | @some type ts _ ht =>
    have hspan : type.span = spanOf ts := by
      cases ht with
      | primitive => exact (spanOf_single _).symm
      | named hn => exact hn.span
    have hspares := ho type rfl
    rw [hspan] at hspares
    exact fun t ht => hk.spared hspares ht (hk.sorted.within ht).1

end Names

theorem untied_append {es es' : List Expr} :
    Untied k (es ++ es') ↔ Untied k es ∧ Untied k es' := List.forall_mem_append

theorem untied_exprs {e : Expr} :
    Untied k e.exprs ↔ (∀ s ∈ e.ties, s.Spares k) ∧ Untied k e.kind.exprs := by
  rw [Expr.exprs_eq]
  exact List.forall_mem_cons

theorem untied_of_name {e : Expr} {name : Name} (h : e.kind = .name name)
    (hk : name.tie.Spares k) : Untied k e.exprs := by
  rw [untied_exprs, h, Expr.ties, h]
  exact ⟨fun s hs => List.mem_singleton.1 hs ▸ hk, nofun⟩

/-- A key is tied where what it was read as is. -/
theorem untied_of_pairKey {e value : Expr} {key : PairKey} {span : Span}
    (h : Parser.pairKey? e = some key) (he : Untied k (Expr.mk (.pair key value) span).exprs) :
    Untied k e.exprs := by
  obtain ⟨hties, hinner⟩ := untied_exprs.1 he
  have hkey := PairKey.exprs_eq h
  unfold Parser.pairKey? at h
  split at h <;> rename_i hkind
  · obtain rfl := Option.some.inj h
    exact untied_of_name hkind (hties _ (List.mem_singleton_self _))
  · rw [untied_exprs, ← hkey, Expr.ties, hkind]
    exact ⟨nofun, (untied_append.1 hinner).1⟩
  · cases h

/-- What is nested inside a construct is written with a line break where line breaks end nothing. -/
structure Rules.Breaking (k : Nat) (rules : Rules) : Prop where
  balancing : rules.Balancing
  expr : ∀ {s min e ts}, rules.expr s min e ts → s.breakEnds = false → Exposed k ts →
    Untied k e.exprs → rules.expr s min e (breakIn k ts)
  value : ∀ {s min e ts}, rules.value s min e ts → s.breakEnds = false → Exposed k ts →
    Untied k e.exprs → rules.value s min e (breakIn k ts)

section Breaking

variable {rules : Rules} (hr : rules.Breaking k)
include hr

/-- Nothing in the brackets of a block is reached by a break before a token outside of them. -/
theorem Block.Written.breakIn {b : Block} (h : b.Written rules ts) (hk : Exposed k ts) :
    b.Written rules (Token.breakIn k ts) := by
  have hspan := @spanOf_breakIn k ts
  cases h with
  | mk ht hs =>
    have hinside := hs.shallow (by rw [ht]; rfl) (by decide) hr.balancing.statement hk.shallow
    rw [← hspan, breakIn_cons, breakIn_eq hinside]
    exact .mk (by simpa using ht) hs

theorem Expr.OperandWritten.breakIn {e : Expr} (h : e.OperandWritten rules s ts)
    (hs : s.breakEnds = false) (hk : Exposed k ts) (he : Untied k e.exprs) :
    e.OperandWritten rules s (Token.breakIn k ts) := by
  have hspan := @spanOf_breakIn k ts
  obtain ⟨hties, hinner⟩ := untied_exprs.1 he
  cases h with
  | @unary op t ts operand ht ho =>
    rw [breakIn_cons, ← @breakAt_span k t]
    exact .unary (by simpa using ht) (hr.expr ho hs (hk.tail (UnaryOp.plain_of_kind ht)) hinner)
  | @word t word literal ht hl =>
    rw [← @breakAt_span k t]
    exact .word (by simpa using ht) hl
  | name hn => exact .name (hn.breakIn hk (hties _ (List.mem_singleton_self _)))
  | @number t kind ht =>
    rw [← @breakAt_span k t, ← @breakAt_text k t]
    exact .number (by simpa using ht)
  | @string t literal ht hl =>
    rw [← @breakAt_span k t]
    refine .string (by simpa using ht) ?_
    cases hl with
    | mk hd hp =>
      rw [← @breakAt_span k t]
      exact .mk (by simpa using hd) hp
  | group ht hi hu =>
    have hinside := hk.shallow.closed (by rw [ht]; rfl) (hr.balancing.expr hi)
    rw [← hspan, breakIn_cons, breakIn_eq hinside]
    exact .group (by simpa using ht) hi hu
  | array ht hi =>
    have hinside := hi.shallow (by rw [ht]; rfl) (by decide) hr.balancing.value hk.shallow
    rw [← hspan, breakIn_cons, breakIn_eq hinside]
    exact .array (by simpa using ht) hi
  | object ht hb hw =>
    have hinside := hw.shallow (by rw [ht]; rfl) (by decide) hr.balancing.statement hk.shallow
    rw [← hspan, breakIn_cons, breakIn_eq hinside]
    exact .object (by simpa using ht) hb hw

theorem Block.TrailingWritten.breakIn {o : Option Block} (h : Block.TrailingWritten rules s o ts)
    (hk : Exposed k ts)
    (ho : ∀ body ∈ o, Span.Spares ⟨body.span.start, body.span.start + 1⟩ k) :
    Block.TrailingWritten rules s o (Token.breakIn k ts) := by
  cases h with
  | none => exact .none
  | @some body ts hs hc hb =>
    have hself : ∀ v ∈ ts, v.start ≠ k := by
      have hspares := ho body rfl
      cases hb with
      | @mk t ts statements ht hw =>
        rw [List.forall_mem_cons]
        refine ⟨fun hstart => hspares ⟨Nat.le_of_eq hstart, hstart ▸ Nat.lt_succ_self _⟩, ?_⟩
        exact hw.shallow (by rw [ht]; rfl) (by decide) hr.balancing.statement hk.shallow
    rw [breakIn_eq hself]
    exact .some hs hc hb

theorem Expr.Extends.breakIn {left e : Expr} {o : Operator}
    (h : Expr.Extends rules s left o (t :: ts) e) (ht : Operator.ofKind? t.kind = some o)
    (hs : s.breakEnds = false) (hk : Exposed k (t :: ts)) (he : Untied k e.exprs) :
    Expr.Extends rules s left o (t.breakAt k :: Token.breakIn k ts) e := by
  obtain ⟨hties, hinner⟩ := untied_exprs.1 he
  cases h with
  | binary ho hw =>
    have hplain := Operator.plain_of_kind ht (by simp [ho])
    exact .binary ho (hr.expr hw hs (hk.tail hplain) (untied_append.1 hinner).2)
  | comparison ho hw =>
    have hplain := Operator.plain_of_kind ht (by simp [ho])
    exact .comparison ho (hr.expr hw hs (hk.tail hplain) (untied_append.1 hinner).2)
  | pair ho hkey hv =>
    have hplain := Operator.plain_of_kind ht (by simp [ho])
    exact .pair ho hkey (hr.value hv hs (hk.tail hplain) (untied_append.1 hinner).2)
  | transition ho hsource hn =>
    have hplain := Operator.plain_of_kind ht (by simp [ho])
    exact .transition ho hsource (hn.breakIn (hk.tail hplain) (hties _ (by simp [Expr.ties])))
  | @call args body _ ts us ho ha hb =>
    have hopen := Operator.opener_of_kind ht ho
    have hargs := ha.enclosed hopen (by decide) rfl hr.balancing.expr
    rw [← List.cons_append] at hk
    have hinside := ha.shallow hopen (by decide) hr.balancing.expr hk.left.shallow
    have hspan := spanFrom_congr (@breakIn_same k (t :: (ts ++ us))) left.span.start
    rw [breakIn_cons, breakIn_append, breakIn_eq hinside] at hspan
    rw [breakIn_append, breakIn_eq hinside, ← hspan]
    refine .call ho ha (hb.breakIn hr (hk.right hargs) fun b hb => hties _ ?_)
    obtain rfl : body = some b := hb
    exact List.mem_singleton_self _

theorem Expr.Written.breakIn {e : Expr} (h : e.Written rules s min ts) (hs : s.breakEnds = false) :
    Exposed k ts → Untied k e.exprs → e.Written rules s min (Token.breakIn k ts) := by
  induction h with
  | operand he => exact fun hk hu => .operand (he.breakIn hr hs hk hu)
  | @extend left e o t ts us hl hle ho he ih =>
    intro hk hu
    have hleft : Untied k left.exprs := by
      obtain ⟨hties, hinner⟩ := untied_exprs.1 hu
      cases he with
      | binary => exact (untied_append.1 hinner).1
      | comparison => exact (untied_append.1 hinner).1
      | pair _ hkey => exact untied_of_pairKey hkey hu
      | transition _ hsource => exact untied_of_name hsource (hties _ (by simp [Expr.ties]))
      | call => exact (untied_append.1 (untied_append.1 hinner).1).1
    have hext := he.breakIn hr ho.operator hs (hk.right (hl.balanced hr.balancing)) hu
    have hends := hle.mono (looser_breakIn (k := k) hs (t :: us))
    rw [breakIn_append, breakIn_cons]
    exact .extend (ih hk.left hleft) hends (ho.breakAt hs) hext

theorem ElseIf.EachWritten.breakIn {es : List ElseIf} (h : ElseIf.EachWritten rules s es ts)
    (hs : s.breakEnds = false) : Exposed k ts → Untied k (ElseIf.exprsEach es) →
      ElseIf.EachWritten rules s es (Token.breakIn k ts) := by
  induction h with
  | nil => exact fun _ _ => .nil
  | @cons e es ts us he _ ih =>
    intro hk hu
    obtain ⟨hself, hrest⟩ := untied_append.1 hu
    have htail := ih (hk.right (he.balanced hr.balancing)) hrest
    rw [breakIn_append]
    refine .cons ?_ htail
    have hspan := @spanOf_breakIn k ts
    have hk := hk.left
    cases he with
    | mk ht hu' hc hb =>
      obtain ⟨hcondition, -⟩ := untied_append.1 hself
      have hk := (hk.tail (plain_of_word ht)).tail (plain_of_word hu')
      rw [← hspan, breakIn_cons, breakIn_cons, breakIn_append]
      exact .mk (by simpa using ht) (by simpa using hu') (hr.expr hc hs hk.left hcondition)
        (hb.breakIn hr (hk.right (hr.balancing.expr hc)))

theorem Block.ElseWritten.breakIn {o : Option Block} (h : Block.ElseWritten rules o ts)
    (hk : Exposed k ts) : Block.ElseWritten rules o (Token.breakIn k ts) := by
  cases h with
  | none => exact .none
  | some ht hb => exact .some (by simpa using ht) (hb.breakIn hr (hk.tail (plain_of_word ht)))

theorem IfStmt.Written.breakIn {stmt : IfStmt} (h : stmt.Written rules s ts)
    (hs : s.breakEnds = false) (hk : Exposed k ts) (hu : Untied k stmt.exprs) :
    stmt.Written rules s (Token.breakIn k ts) := by
  have hspan := @spanOf_breakIn k ts
  cases h with
  | mk ht hc hb hes hl =>
    rw [IfStmt.exprs, untied_append, untied_append, untied_append] at hu
    have hk := hk.tail (plain_of_word ht)
    have hkb := hk.right (hr.balancing.expr hc)
    have hke := hkb.right (hb.balanced hr.balancing)
    rw [← hspan, breakIn_cons, breakIn_append, breakIn_append, breakIn_append]
    exact .mk (by simpa using ht) (hr.expr hc hs hk.left hu.1.1.1) (hb.breakIn hr hkb.left)
      (hes.breakIn hr hs hke.left hu.1.2)
      (hl.breakIn hr (hke.right (hes.balanced hr.balancing)))

theorem VarDecl.InitWritten.breakIn {ds : List VarDecl} (h : VarDecl.InitWritten rules s ds ts)
    (hs : s.breakEnds = false) : Exposed k ts → Untied k (VarDecl.exprsEach ds) →
      (∀ d ∈ ds, ∀ type ∈ d.type, type.span.Spares k) →
      VarDecl.InitWritten rules s ds (Token.breakIn k ts) := by
  induction h with
  | nil => exact fun _ _ _ => .nil
  | @cons d ds t ts us hd ht _ ih =>
    intro hk hu htypes
    obtain ⟨hself, hrest⟩ := untied_append.1 hu
    obtain ⟨htype, htypes⟩ := List.forall_mem_cons.1 htypes
    have htail := ih ((hk.right (hd.balanced hr.balancing)).tail (plain_of_kind ht ⟨rfl, rfl⟩))
      hrest htypes
    rw [breakIn_append, breakIn_cons]
    refine .cons ?_ (by simpa using ht) htail
    have hspan := @spanOf_breakIn k ts
    have hk := hk.left
    cases hd with
    | mk ht hn hy hv he =>
      have hk := (hk.tail (plain_of_word ht)).tail (plain_of_kind hn.kind ⟨rfl, rfl⟩)
      have hkv := (hk.right hy.balanced).tail (plain_of_kind hv ⟨rfl, rfl⟩)
      rw [← hspan, breakIn_cons, breakIn_cons, breakIn_append, breakIn_cons,
        breakIn_eq (hy.spared hk.left htype)]
      exact .mk (by simpa using ht) hn.breakAt hy (by simpa using hv) (hr.value he hs hkv hself)

theorem WhenStmt.Written.breakIn {stmt : WhenStmt} (h : stmt.Written rules s ts)
    (hs : s.breakEnds = false) (hk : Exposed k ts) (hu : Untied k stmt.exprs)
    (htypes : ∀ d ∈ stmt.init, ∀ type ∈ d.type, type.span.Spares k) :
    stmt.Written rules s (Token.breakIn k ts) := by
  have hspan := @spanOf_breakIn k ts
  cases h with
  | mk ht hi hw hopen hc =>
    rw [WhenStmt.exprs, untied_append, untied_append, untied_append] at hu
    have hk := hk.tail (plain_of_word ht)
    have hks := hk.right (hi.balanced hr.balancing)
    have hkc := hks.right (hr.balancing.expr hw)
    obtain ⟨vs, c, rfl, -, hbalanced⟩ := hc.balanced hr.balancing
    have hinside := hkc.shallow.closed (by rw [hopen]; rfl) hbalanced
    rw [← hspan, breakIn_cons, breakIn_append, breakIn_append, breakIn_cons, breakIn_eq hinside]
    exact .mk (by simpa using ht) (hi.breakIn hr hs hk.left hu.1.1.1 htypes)
      (hr.expr hw hs hks.left hu.1.1.2) (by simpa using hopen) hc

theorem Expr.ValueWritten.breakIn {e : Expr} (h : e.ValueWritten rules s min ts)
    (hs : s.breakEnds = false) (hk : Exposed k ts) (hu : Untied k e.exprs) :
    e.ValueWritten rules s min (Token.breakIn k ts) := by
  have hspan := @spanOf_breakIn k ts
  cases h with
  | ifExpr hw =>
    rw [← hspan]
    exact .ifExpr (hw.breakIn hr hs hk (untied_exprs.1 hu).2)
  | @whenExpr stmt ts hw =>
    obtain ⟨hties, hinner⟩ := untied_exprs.1 hu
    rw [← hspan]
    refine .whenExpr (hw.breakIn hr hs hk hinner fun d hd type htype => hties _ ?_)
    rw [Expr.ties, List.mem_filterMap]
    exact ⟨d, hd, by rw [Option.mem_def.1 htype]; rfl⟩
  | expr he => exact .expr (he.breakIn hr hs hk hu)

end Breaking

theorem Rules.level_breaking (k : Nat) : ∀ n, (Rules.level n).Breaking k
  | 0 => ⟨Rules.level_balancing 0, False.elim, False.elim⟩
  | n + 1 => ⟨Rules.level_balancing (n + 1),
      fun h hs => h.breakIn (level_breaking k n) hs, fun h hs => h.breakIn (level_breaking k n) hs⟩

/-- What is written in the parentheses of a group is so with a line break in them, whether or not
line breaks end anything around them. -/
theorem Expr.Written.breakInside {n : Nat} {e : Expr}
    (h : e.Written (Rules.level n) s min (t :: ts)) (hg : e.isGroup = true) (hk : Exposed k ts)
    (hu : Untied k e.exprs) :
    e.Written (Rules.level n) s min (Token.breakIn k (t :: ts)) := by
  have hspan := spanOf_breakIn (k := k) (t :: ts)
  generalize hvs : t :: ts = vs at h hspan
  cases h with
  | operand he =>
    cases he with
    | @group t' c ts' inner ht hi hc =>
      obtain ⟨rfl, rfl⟩ := List.cons.inj hvs
      have hinner := (Rules.level_breaking k n).expr hi rfl hk.left (untied_exprs.1 hu).2
      rw [← hspan, breakIn_cons, breakIn_append]
      exact .operand (.group (by simpa using ht) hinner (by simpa using hc))
    | _ => cases hg
  | extend _ _ _ he => cases he <;> cases hg

end Script
